import HotstuffDag.Proof.CommitFrame

/-! # The recursion of votes

A certificate made of the votes of a node is followed by its next proposal, and by its own vote for that. The recursion
goes on only with a higher last voted height, and with a height for which votes are waiting unless the vote of the node
is a quorum by itself. -/

namespace HotstuffDag
open Library Library.Exec

/-! ## Nested calls -/

namespace Core

/-- `handle_vote`, with what is called for the own vote on the next proposal. -/
def handleVoteWith [Crypto] [Bincode] (next : Vote → M Unit) (walk : Nat) (vote : Vote) : M Unit := do
  if vote.height < (← getChain).height then return ()
  else
    liftResult (vote.verify (← getCore).committee)
    let answer ← addVote vote
    answer.elim (pure ()) fun qc => do
      processQc qc
      let block ← generateProposal false
      broadcastProposeWith next walk block

/-- The first calls of the recursion, and what stands in place of the call after them. -/
def voteCalls [Crypto] [Bincode] (bottom : Vote → M Unit) (walk : Nat → Nat) : Nat → Vote → M Unit
  | 0 => bottom
  | n + 1 => handleVoteWith (voteCalls bottom walk n) (walk n)

theorem handleVote_eq [Crypto] [Bincode] (n : Nat) : handleVote n = voteCalls (fun _ => throw .outOfFuel) id n := by
  induction n with
  | zero => rfl
  | succ n ih =>
      funext vote
      unfold handleVote voteCalls handleVoteWith
      rw [ih]
      congr
      funext chain
      split
      · rfl
      · congr
        funext core
        congr
        funext _
        congr
        funext answer
        cases answer <;> rfl

/-- The recursion makes at most so many calls: what would be called after them makes no difference. -/
def StopsWithin [Crypto] [Bincode] (s : State) (vote : Vote) (n : Nat) : Prop :=
  ∀ walk bottom bottom', voteCalls bottom walk n vote s = voteCalls bottom' walk n vote s

end Core

/-! ## What happens between two calls -/

/-- Nothing that the votes of a node depend on changes. -/
structure Idle (s t : State) : Prop where
  chain : t.chain.uncommitted = s.chain.uncommitted
  name : t.core.name = s.core.name
  committee : t.core.committee = s.core.committee

instance : Std.Refl Idle := ⟨fun _ => ⟨rfl, rfl, rfl⟩⟩

instance : IsTrans State Idle where
  trans _ _ _ h h' := ⟨h'.chain.trans h.chain, h'.name.trans h.name, h'.committee.trans h.committee⟩

theorem CommitFrame.idle [Bincode] {s t : State} (h : CommitFrame s t) : Idle s t :=
  ⟨h.chain, h.core_eq Core.name fun _ _ => rfl, h.core_eq Core.committee fun _ _ => rfl⟩

theorem Idle.chain_eq [Bincode] {α : Type} {s t : State} (h : Idle s t) (f : Chain → α) (blind : ∀ c : Chain, f c.uncommitted = f c) :
    f t.chain = f s.chain :=
  Chain.uncommitted_eq f blind h.chain

theorem idle_env (s : State) (env : Env) : Idle s { s with env := env } := ⟨rfl, rfl, rfl⟩

theorem idle_log {s : State} {l : List Event} : Idle s { s with log := l } := ⟨rfl, rfl, rfl⟩

namespace Core
variable {β : Type} {s : State} {Q : β → State → Prop}

theorem idle_getParentBlock [Bincode] {block : Block} {f : Option Block → M β} (h : ∀ option t, Idle s t → Leads Idle (f option) t Q) :
    Leads Idle (Synchronizer.getParentBlock block >>= f) s Q := by
  apply leads_getBlock idle_env
  · exact fun env _ _ => idle_log
  · exact fun env b _ => h _ _ (idle_env s env)
  · exact fun env _ _ => h _ _ (IsTrans.trans _ _ _ (idle_env s env) idle_log)

theorem idle_processAncestors [Bincode] (walk : Nat) (block : Block) : Leads Idle (processAncestors walk block) s fun _ _ => True := by
  have ancestors {t : State} : Leads Idle (Synchronizer.getAncestors block) t fun _ _ => True := by
    unfold Synchronizer.getAncestors
    apply idle_getParentBlock
    intro parent t _
    cases parent with
    | none => exact Leads.pure trivial
    | some b1 =>
        apply idle_getParentBlock
        intro grandparent t _
        cases grandparent <;> exact Leads.pure trivial
  unfold processAncestors processBlockPrepare
  apply leads_getCore
  apply Leads.ite
  · intro _
    refine Leads.bind ancestors fun found t _ _ => ?_
    cases found with
    | none => exact Leads.pure trivial
    | some pair =>
        obtain ⟨b0, b1⟩ := pair
        refine leads_getCore (leads_getChain (Leads.ite (fun _ => ?_) fun _ => Leads.pure trivial))
        unfold processBlockCommit
        refine leads_getCore (Leads.ite (fun _ => ?_) fun _ => Leads.pure trivial)
        refine leads_checkedAdd fun _ => Leads.ite (fun _ => ?_) fun _ => Leads.pure trivial
        refine leads_getChain (leads_emit idle_log ?_)
        exact (leads_commit walk b0 _).mono fun _ frame => frame.idle
  · intro _
    exact Leads.bind ancestors fun _ _ _ _ => Leads.pure trivial

/-- The vote that `make_vote` grants, and what it leaves. -/
structure GrantedVote [Crypto] (s : State) (block : Block) (vote : Vote) (t : State) : Prop where
  vote : vote = .new block s.core.name
  core : t.core = s.core
  chain : t.chain = s.chain.lockVote block.height
  higher : s.chain.lastVotedHeight < block.height

theorem ends_makeVote [Crypto] (block : Block) :
    Ends (makeVote block) s (fun answer t => ∀ vote, answer = some vote → GrantedVote s block vote t) fun _ _ => True := by
  unfold makeVote
  apply ends_getCore
  apply ends_getChain
  apply Ends.ite
  · intro _
    exact Ends.pure fun vote none => by contradiction
  · intro _
    apply Ends.ite
    · intro _
      exact Ends.pure fun vote none => by contradiction
    · intro _
      apply ends_checkedAdd trivial
      intro _
      apply Ends.ite
      · rintro ⟨higher, -⟩ vote made
        obtain rfl := Option.some.inj made
        exact ⟨rfl, rfl, rfl, higher⟩
      · intro _
        exact Ends.pure fun vote none => by contradiction

theorem processBlockVote_agree [Crypto] {next next' : Vote → M Unit} {block : Block}
    (agree : ∀ vote t, GrantedVote s block vote t → next vote t = next' vote t) :
    processBlockVote next block s = processBlockVote next' block s := by
  unfold processBlockVote
  refine Ends.agree (Q := fun chain t => t = s) (E := fun _ _ => True) rfl ?_
  rintro chain t rfl
  split
  · apply Ends.agree (ends_makeVote block)
    intro answer t granted
    cases answer with
    | none => rfl
    | some vote =>
        refine Ends.agree (Q := fun core u => u = t) (E := fun _ _ => True) rfl ?_
        rintro core u rfl
        split
        · exact agree vote u (granted vote rfl)
        · rfl
  · rfl

/-- A vote for an own proposal, and the state in which it is handled. -/
structure CastVote [Crypto] (s : State) (block : Block) (vote : Vote) (t : State) : Prop where
  vote : vote = .new block s.core.name
  name : t.core.name = s.core.name
  committee : t.core.committee = s.core.committee
  height : t.chain.height = s.chain.height
  aggregator : t.chain.aggregator = s.chain.aggregator
  locked : s.chain.lastVotedHeight < t.chain.lastVotedHeight

theorem GrantedVote.cast [Crypto] [Bincode] {s t u : State} {block : Block} {vote : Vote} (idle : Idle s t)
    (granted : GrantedVote t block vote u) :
    CastVote s block vote u := by
  obtain ⟨rfl, core, chain, higher⟩ := granted
  have locked := idle.chain_eq Chain.lastVotedHeight fun _ => rfl
  constructor
  · rw [idle.name]
  · rw [core, idle.name]
  · rw [core, idle.committee]
  · rw [chain]
    exact idle.chain_eq Chain.height fun _ => rfl
  · rw [chain]
    exact idle.chain_eq Chain.aggregator fun _ => rfl
  · rw [chain]
    show _ < if t.chain.lastVotedHeight < block.height then block.height else t.chain.lastVotedHeight
    rw [if_pos higher, ← locked]
    exact higher

theorem broadcastProposeWith_agree [Crypto] [Bincode] {next next' : Vote → M Unit} {walk : Nat} {block : Block}
    (agree : ∀ vote t, CastVote s block vote t → next vote t = next' vote t) :
    broadcastProposeWith next walk block s = broadcastProposeWith next' walk block s := by
  have sent : Leads Idle (Synchronizer.transmit (.propose block) none HOTSTUFF) s fun _ _ => True :=
    leads_last (leads_transmit (fun _ => idle_log) fun _ => Leads.pure trivial)
  unfold broadcastProposeWith
  apply Ends.agree sent.ends
  rintro - t ⟨idle, -⟩
  unfold processBlockWith
  refine Ends.agree (Q := fun _ u => Idle t u) (E := fun _ _ => True) idle_log ?_
  intro _ u idle'
  refine Ends.agree (Q := fun _ v => Idle u v) (E := fun _ _ => True) ⟨rfl, rfl, rfl⟩ ?_
  intro _ v idle''
  apply Ends.agree (idle_processAncestors walk block).ends
  rintro - w ⟨last, -⟩
  apply processBlockVote_agree
  intro vote x granted
  apply agree
  exact granted.cast (IsTrans.trans _ _ _ (IsTrans.trans _ _ _ (IsTrans.trans _ _ _ idle idle') idle'') last)

/-- The next call of the recursion. -/
structure NextCall (s : State) (vote : Vote) (next : Vote) (t : State) : Prop where
  author : next.author = s.core.name
  height : next.height = t.chain.height
  name : t.core.name = s.core.name
  committee : t.core.committee = s.core.committee
  current : s.chain.height ≤ vote.height
  above : t.chain.height.toNat = vote.height.toNat + 1
  completed : ∃ qc, (s.chain.aggregator.addVote vote s.core.committee).1 = .ok (some qc)
  aggregator : t.chain.aggregator = (s.chain.aggregator.addVote vote s.core.committee).2.cleanup s.core.epoch t.chain.height
  locked : s.chain.lastVotedHeight < t.chain.lastVotedHeight

theorem ends_addVote (vote : Vote) :
    Ends (addVote vote) s (fun answer t => t.core = s.core ∧ t.chain = s.chain.countVote s.core.committee vote ∧
      (s.chain.aggregator.addVote vote s.core.committee).1 = .ok answer) fun _ _ => True := by
  unfold addVote
  apply ends_get
  unfold Chain.countVote
  rcases s.chain.aggregator.addVote vote s.core.committee with ⟨result | answer, aggregator⟩
  · trivial
  · exact ⟨rfl, rfl, rfl⟩

theorem ends_processQc {qc : QC} (current : s.chain.height ≤ qc.height) :
    Ends (processQc qc) s (fun _ t => t.core = s.core ∧ t.chain = s.chain.certify s.core.epoch qc ∧
      t.chain.height.toNat = qc.height.toNat + 1) fun _ _ => True := by
  have low : ¬ qc.height < s.chain.height := UInt64.not_lt.mpr current
  unfold processQc advanceHeight
  refine Ends.bind (Q := fun _ t => t.core = s.core ∧ t.chain = s.chain.advance s.core.epoch qc.height ∧
    t.chain.height.toNat = qc.height.toNat + 1) ?_ ?_
  · apply ends_getChain
    rw [if_neg low]
    apply ends_checkedAdd trivial
    intro small
    refine ⟨rfl, ?_, toNat_succ small⟩
    unfold Chain.advance
    rw [if_neg low]
  · rintro _ t ⟨core, chain, height⟩
    exact ⟨core, by rw [Chain.certify, ← chain]; rfl, height⟩

theorem ends_generateProposal [Crypto] (tag : Bool) :
    Ends (generateProposal tag) s (fun block t => t.core = s.core ∧ t.chain = s.chain ∧ block.height = s.chain.height) fun _ _ => True := by
  unfold generateProposal getPayload
  apply ends_getCore
  apply ends_getChain
  rw [bind_assoc]
  apply ends_get
  rw [bind_assoc]
  apply ends_emit
  cases s.env.payloads <;> exact ⟨rfl, rfl, rfl⟩

theorem certificate_height {a : Aggregator} {vote : Vote} {committee : Committee} {qc : QC}
    (completed : (a.addVote vote committee).1 = .ok (some qc)) : qc.height = vote.height := by
  have answer : (QCMaker.append (a.votesAggregators.getD vote.height Maker.new) vote committee).1 = .ok (some qc) := completed
  unfold QCMaker.append at answer
  split at answer
  · contradiction
  · dsimp only at answer
    split at answer
    · rw [← Option.some.inj (Except.ok.inj answer)]
    · simp at answer

theorem ends_liftResult_same {result : ConsensusResult Unit} :
    Ends (liftResult result) s (fun _ t => t = s) fun _ _ => True := by
  cases result with
  | ok a => rfl
  | error e => trivial

theorem handleVoteWith_agree [Crypto] [Bincode] {next next' : Vote → M Unit} {walk : Nat} {vote : Vote}
    (agree : ∀ own t, NextCall s vote own t → next own t = next' own t) :
    handleVoteWith next walk vote s = handleVoteWith next' walk vote s := by
  unfold handleVoteWith
  refine Ends.agree (Q := fun chain t => chain = s.chain ∧ t = s) (E := fun _ _ => True) ⟨rfl, rfl⟩ ?_
  rintro chain t ⟨rfl, rfl⟩
  split
  · rfl
  · rename_i current
    refine Ends.agree (Q := fun core u => u = t) (E := fun _ _ => True) rfl ?_
    rintro core u rfl
    apply Ends.agree ends_liftResult_same
    rintro _ v rfl
    apply Ends.agree (ends_addVote vote)
    rintro answer w ⟨core', chain, completed⟩
    cases answer with
    | none => rfl
    | some qc =>
        have at_height := certificate_height completed
        have low : w.chain.height ≤ qc.height := by
          rw [at_height, chain]
          exact UInt64.not_lt.mp current
        show (processQc qc >>= _) w = (processQc qc >>= _) w
        apply Ends.agree (ends_processQc low)
        rintro _ x ⟨core'', certified, above⟩
        apply Ends.agree (ends_generateProposal false)
        rintro block y ⟨reached, same, height⟩
        apply broadcastProposeWith_agree
        rintro own z ⟨rfl, name, committee, height', aggregator, locked⟩
        apply agree
        have whole : y.chain = (v.chain.countVote v.core.committee vote).certify v.core.epoch qc := by
          rw [same, certified, core', chain]
        constructor
        · show y.core.name = _
          rw [reached, core'', core']
        · show block.height = _
          rw [height, height', same]
        · rw [name, reached, core'', core']
        · rw [committee, reached, core'', core']
        · exact UInt64.not_lt.mp current
        · rw [height', same, above, at_height]
        · exact ⟨qc, completed⟩
        · rw [aggregator, height', whole, Chain.certify, Chain.advance, if_neg]
          · rfl
          · rw [chain] at low
            exact UInt64.not_lt.mpr low
        · refine lt_of_eq_of_lt ?_ locked
          rw [whole, Chain.certify, Chain.advance]
          split <;> rfl

/-! ## How many calls there are -/

/-- Each call has a higher last voted height. -/
theorem voteCalls_agree_locked [Crypto] [Bincode] {walk : Nat → Nat} {bottom bottom' : Vote → M Unit} {n : Nat} {s : State}
    {vote : Vote}
    (room : 2 ^ 64 ≤ s.chain.lastVotedHeight.toNat + n) : voteCalls bottom walk n vote s = voteCalls bottom' walk n vote s := by
  induction n generalizing s vote with
  | zero => exact absurd (UInt64.toNat_lt s.chain.lastVotedHeight) (Nat.not_lt.mpr room)
  | succ n ih =>
      apply handleVoteWith_agree
      intro own t follows
      apply ih
      have locked := UInt64.lt_iff_toNat_lt.mp follows.locked
      omega

end Core

/-- The heights from that of the chain on for which votes are counted. -/
def Chain.buffered (c : Chain) : Nat := (c.aggregator.votesAggregators.keys.filter fun height => c.height ≤ height).length

namespace Core
variable {s t : State} {vote own : Vote}

theorem NextCall.keys (follows : NextCall s vote own t) :
    t.chain.aggregator.votesAggregators.keys.filter (fun height => t.chain.height ≤ height) =
      (s.chain.aggregator.votesAggregators.keys.filter fun height => t.chain.height ≤ height) := by
  have dropped : ¬ t.chain.height ≤ vote.height := by
    rw [UInt64.le_iff_toNat_le, follows.above]
    omega
  rw [follows.aggregator]
  show ((s.chain.aggregator.votesAggregators.insert _ _).retain fun height => height ≥ t.chain.height).keys.filter _ = _
  rw [Map.keys_retain, Map.keys_insert, List.filter_filter, List.filter_cons_of_neg, List.filter_filter]
  · apply List.filter_congr
    intro height _
    by_cases above : t.chain.height ≤ height
    · have other : height ≠ vote.height := fun same => dropped (same ▸ above)
      simp [above, other]
    · simp [above]
  · simp [dropped]

theorem NextCall.raised (follows : NextCall s vote own t) (height : SeqNumber) (above : t.chain.height ≤ height) :
    vote.height < height := by
  rw [UInt64.le_iff_toNat_le, follows.above] at above
  rw [UInt64.lt_iff_toNat_lt]
  omega

/-- The next call has no more heights to count for. -/
theorem NextCall.buffered_le (follows : NextCall s vote own t) : t.chain.buffered ≤ s.chain.buffered := by
  unfold Chain.buffered
  rw [follows.keys, ← List.countP_eq_length_filter, ← List.countP_eq_length_filter]
  apply List.countP_mono_left
  intro height _ above
  apply decide_eq_true
  exact UInt64.le_trans follows.current (UInt64.le_of_lt (follows.raised height (of_decide_eq_true above)))

/-- It has one less if the votes are for the height of the chain. -/
theorem NextCall.buffered_lt (follows : NextCall s vote own t) (here : vote.height = s.chain.height)
    (counted : vote.height ∈ s.chain.aggregator.votesAggregators.keys) : t.chain.buffered < s.chain.buffered := by
  have among : t.chain.buffered =
      ((s.chain.aggregator.votesAggregators.keys.filter fun height => s.chain.height ≤ height).filter fun height =>
        t.chain.height ≤ height).length := by
    unfold Chain.buffered
    rw [follows.keys, List.filter_filter]
    congr 1
    apply List.filter_congr
    intro height _
    by_cases above : t.chain.height ≤ height
    · have low : s.chain.height ≤ height := here ▸ UInt64.le_of_lt (follows.raised height above)
      simp [above, low]
    · simp [above]
  rw [among]
  apply List.length_filter_lt_length_iff_exists.mpr
  refine ⟨vote.height, List.mem_filter.mpr ⟨counted, decide_eq_true (here ▸ UInt64.le_refl _)⟩, ?_⟩
  simp only [decide_eq_true_eq]
  intro above
  exact UInt64.lt_irrefl _ (follows.raised _ above)

/-- A vote that is no quorum by itself completes a certificate with votes that are there. -/
theorem NextCall.counted (follows : NextCall s vote own t)
    (light : s.core.committee.stake vote.author < s.core.committee.quorumThreshold) :
    vote.height ∈ s.chain.aggregator.votesAggregators.keys := by
  obtain ⟨qc, completed⟩ := follows.completed
  have answer : (QCMaker.append (s.chain.aggregator.votesAggregators.getD vote.height Maker.new) vote s.core.committee).1 =
      .ok (some qc) := completed
  unfold Map.getD at answer
  cases found : s.chain.aggregator.votesAggregators.get? vote.height with
  | some maker => exact Map.mem_keys found
  | none =>
      rw [found] at answer
      unfold QCMaker.append Maker.push at answer
      simp [Maker.new, Nat.not_le.mpr light] at answer

theorem voteCalls_agree_own [Crypto] [Bincode] {walk : Nat → Nat} {bottom bottom' : Vote → M Unit} {n : Nat}
    (light : s.core.committee.stake s.core.name < s.core.committee.quorumThreshold) (author : vote.author = s.core.name)
    (here : vote.height = s.chain.height) (room : s.chain.buffered < n) :
    voteCalls bottom walk n vote s = voteCalls bottom' walk n vote s := by
  induction n generalizing s vote with
  | zero => contradiction
  | succ n ih =>
      apply handleVoteWith_agree
      intro own t follows
      have fewer := follows.buffered_lt here (follows.counted (author ▸ light))
      apply ih
      · rw [follows.committee, follows.name]
        exact light
      · rw [follows.name]
        exact follows.author
      · exact follows.height
      · omega

/-- The recursion stops: each call raises the last voted height, and where the vote of the node is no quorum by itself,
each call but the first uses up a height for which votes were waiting. -/
theorem vote_handling_stops [Crypto] [Bincode] (s : State) (vote : Vote) :
    StopsWithin s vote (2 ^ 64 - s.chain.lastVotedHeight.toNat) ∧
      (s.core.committee.stake s.core.name < s.core.committee.quorumThreshold → StopsWithin s vote (s.chain.buffered + 2)) := by
  constructor
  · intro walk bottom bottom'
    apply voteCalls_agree_locked
    omega
  · intro light walk bottom bottom'
    apply handleVoteWith_agree
    intro own t follows
    have fewer := follows.buffered_le
    apply voteCalls_agree_own
    · rw [follows.committee, follows.name]
      exact light
    · rw [follows.name]
      exact follows.author
    · exact follows.height
    · omega

end Core
end HotstuffDag
