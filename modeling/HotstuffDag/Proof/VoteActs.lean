import HotstuffDag.Proof.Frame

/-! # The handlers of proposals and votes -/

namespace HotstuffDag
open Library Library.Exec
variable [Crypto] {got : ConsensusMessage → Prop}

theorem Origin.author_of {k : Core} {c : Chain} {l : List Event} {b : Block} (h : Origin got k c l b) :
    b.author = c.name ∨ b.author = k.name ∧ ∃ qc, Event.assembled c.name qc ∈ l := by
  cases h with
  | own _ author turn =>
      rcases turn with same | assembled
      · exact .inl (author.trans same.symm)
      · exact .inr ⟨author, assembled⟩
  | proposal _ author => exact .inl author
  | loopBack _ author => exact .inl author

section
omit [Crypto]

theorem cue_snoc (l : List Event) (e : Event) : cue (l ++ [e]) = if e.isGet then cue l else some e := by
  unfold cue
  cases get : e.isGet <;> simp [get]

theorem Cued.get {c : Chain} {l : List Event} (h : Cued c l) (max : Nat) : Cued c (l ++ [.mempool (.get max)]) := by
  have same : cue (l ++ [.mempool (.get max)]) = cue l := cue_snoc l _
  cases h with
  | start first => exact .start (same.trans first)
  | certified last above => exact .certified (same.trans last) above
  | ended last named => exact .ended (same.trans last) named

end

variable [Bincode]

namespace Core
variable {β : Type} {s : State} {Q : β → State → Prop}

theorem Evolves.env (s : State) (env : Env) : Evolves got s { s with env := env } :=
  Relation.ReflTransGen.refl

theorem leads_processQc {qc : QC} {f : PUnit → M β} (why : Certified got s.core s.chain s.log qc)
    (h : qc.height < (s.chain.certify s.core.epoch qc).height →
      Leads (Evolves got) (f ⟨⟩) { s with chain := s.chain.certify s.core.epoch qc } Q) :
    Leads (Evolves got) (processQc qc >>= f) s Q := by
  unfold processQc advanceHeight
  simp only [bind_assoc]
  refine leads_getChain ?_
  by_cases old : qc.height < s.chain.height
  · have act : Evolves got s { s with chain := s.chain.certify s.core.epoch qc } :=
      .single (.certify why (.inr old))
    have result := (h (Chain.height_lt_certify (.inr old))).after act
    simp only [Chain.certify, Chain.advance, if_pos old] at result
    simp only [if_pos old]
    exact result
  · simp only [if_neg old, bind_assoc]
    refine leads_checkedAdd fun small => ?_
    have next : qc.height.toNat + 1 < 2 ^ 64 ∨ qc.height < s.chain.height := .inl (by simpa using small)
    have act : Evolves got s { s with chain := s.chain.certify s.core.epoch qc } := .single (.certify why next)
    have result := (h (Chain.height_lt_certify next)).after act
    simp only [Chain.certify, Chain.advance, if_neg old] at result
    exact result

theorem leads_getPayload {f : List Digest → M β}
    (h : ∀ payload env, Leads (Evolves got) (f payload)
      { s with env := env, log := s.log ++ [.mempool (.get s.core.parameters.maxPayloadSize)] } Q) :
    Leads (Evolves got) (getPayload >>= f) s Q := by
  unfold getPayload
  rw [bind_assoc]
  refine leads_get ?_
  rw [bind_assoc]
  refine leads_emit (AbaAct.quiet (by trivial)).evolves ?_
  cases s.env.payloads with
  | nil => exact h [] s.env
  | cons payload rest => exact h payload _

/-- A fresh proposal: signed, and by this node. -/
theorem leads_generateProposal {tag : Bool} {f : Block → M β}
    (turn : s.chain.name = s.core.name ∨ ∃ qc, Event.assembled s.chain.name qc ∈ s.log) (cued : Cued s.chain s.log)
    (h : ∀ block t, Evolves got s t → Event.signed (.block block) ∈ t.log → block.author = t.core.name →
      Leads (Evolves got) (f block) t Q) :
    Leads (Evolves got) (generateProposal tag >>= f) s Q := by
  unfold generateProposal
  simp only [bind_assoc]
  refine leads_getCore (leads_getChain (leads_getPayload fun payload env => ?_))
  have high : (if tag then QC.genesis else s.chain.highQc) = QC.genesis ∨
      (if tag then QC.genesis else s.chain.highQc) = s.chain.highQc := by
    cases tag
    · exact .inr rfl
    · exact .inl rfl
  have quiet : Evolves got s
      { s with env := env, log := s.log ++ [.mempool (.get s.core.parameters.maxPayloadSize)] } :=
    .single (.aba (.quiet trivial))
  have turn' : s.chain.name = s.core.name ∨ ∃ qc, Event.assembled s.chain.name qc ∈
      s.log ++ [.mempool (.get s.core.parameters.maxPayloadSize)] :=
    turn.imp_right fun ⟨qc, assembled⟩ => ⟨qc, by simpa using assembled⟩
  unfold sign
  refine leads_emit (.single (.propose high turn' (cued.get _))) ?_
  exact h _ _ (quiet.tail (.propose high turn' (cued.get _))) (by simp) rfl

/-! ## Processing a block -/

/-- The states that a search for blocks runs through. -/
def Searches (s t : State) : Prop := t.core = s.core ∧ t.chain = s.chain

theorem leads_getParentBlock {block : Block} {f : Option Block → M β}
    (why : Event.process block ∈ s.log ∨ ∃ b, Event.process b ∈ s.log ∧ Fetched s.core.store b.parent block)
    (found : ∀ t b, Evolves got s t → Searches s t → Fetched s.core.store block.parent b →
      Leads (Evolves got) (f (some b)) t Q)
    (missing : ∀ t, Evolves got s t → Searches s t → Leads (Evolves got) (f none) t Q) :
    Leads (Evolves got) (Synchronizer.getParentBlock block >>= f) s Q := by
  have request (env : Env) (proper : block.parent ≠ QC.genesis.hash) (stored : s.core.store.get? block.parent = none) :
      Evolves got { s with env := env }
        { s with env := env, log := s.log ++ [.request block.author block.parent (some block)] } := by
    refine .single (.request proper stored fun b same => ?_)
    obtain rfl := Option.some.inj same
    exact ⟨rfl, why⟩
  refine leads_getBlock Evolves.env request ?_ ?_
  · exact fun env b fetched => found _ b (Evolves.env s env) ⟨rfl, rfl⟩ fetched
  · exact fun env proper stored => missing _ (request env proper stored) ⟨rfl, rfl⟩

theorem leads_getAncestors {block : Block} {f : Option (Block × Block) → M β}
    (processed : Event.process block ∈ s.log)
    (found : ∀ t b0 b1, Evolves got s t → Searches s t → Fetched s.core.store block.parent b1 →
      Fetched s.core.store b1.parent b0 → Leads (Evolves got) (f (some (b0, b1))) t Q)
    (missing : ∀ t, Evolves got s t → Searches s t → Leads (Evolves got) (f none) t Q) :
    Leads (Evolves got) (Synchronizer.getAncestors block >>= f) s Q := by
  unfold Synchronizer.getAncestors
  rw [bind_assoc]
  refine leads_getParentBlock (.inl processed) (fun t b1 reach same parent => ?_) missing
  have why : Event.process b1 ∈ t.log ∨ ∃ b, Event.process b ∈ t.log ∧ Fetched t.core.store b.parent b1 := by
    refine .inr ⟨block, Evolves.mem reach processed, ?_⟩
    rwa [same.1]
  dsimp only
  rw [bind_assoc]
  refine leads_getParentBlock why (fun t' b0 reach' same' grandparent => ?_) fun t' reach' same' => ?_
  · rw [same.1] at grandparent
    exact found t' b0 b1 (reach.trans reach') ⟨same'.1.trans same.1, same'.2.trans same.2⟩ parent grandparent
  · exact missing t' (reach.trans reach') ⟨same'.1.trans same.1, same'.2.trans same.2⟩

/-- A whole commit is one act. -/
theorem leads_commit_act {fuel : Nat} {b : Block} {f : PUnit → M β}
    (why : CommitReason s.core s.chain s.log b)
    (h : ∀ t, Evolves got s t → CommitFrame s t → Leads (Evolves got) (f ⟨⟩) t Q) :
    Leads (Evolves got) (commit fuel b >>= f) s Q := by
  have act : Evolves got s (final (commit fuel b) s) := .single (.commit why)
  have frame := commit_frame fuel b s
  unfold Leads
  rw [bind_eq]
  unfold final at act frame
  cases exit : commit fuel b s with
  | ok a t =>
      rw [exit] at act frame
      exact (h t act frame).after act
  | error e t =>
      rw [exit] at act
      exact act

theorem leads_processBlockCommit {fuel : Nat} {b b0 b1 : Block} (processed : Event.process b ∈ s.log)
    (author : b.author = s.core.leader) (waiting : s.core.isViewChange = false) (old : b.epoch ≤ s.chain.epoch)
    (parent : Fetched s.core.store b.parent b1) (grandparent : Fetched s.core.store b1.parent b0) :
    Leads (Evolves got) (processBlockCommit fuel b b0 b1) s (fun _ _ => True) := by
  refine leads_getCore ?_
  refine Leads.ite (fun leader => ?_) fun _ => Leads.pure trivial
  refine leads_checkedAdd fun small => ?_
  refine Leads.ite (fun next => ?_) fun _ => Leads.pure trivial
  refine leads_getChain ?_
  refine leads_emit (.single ?_) (leads_last ?_)
  · exact .twoChain processed author waiting old leader parent grandparent next (by simpa using small)
  · have logged := List.mem_append_right s.log (List.mem_singleton_self (Event.twoChain s.core s.chain b b0 b1))
    exact leads_commit_act (.twoChain logged) fun t _ _ => Leads.pure trivial

theorem leads_processAncestors {fuel : Nat} {block : Block} (processed : Event.process block ∈ s.log) :
    Leads (Evolves got) (processAncestors fuel block) s (fun _ _ => True) := by
  unfold processAncestors processBlockPrepare
  refine leads_getCore ?_
  refine Leads.ite (fun author => ?_) fun _ => ?_
  · refine leads_getAncestors processed ?_ fun t _ _ => Leads.pure trivial
    intro t b0 b1 reach same parent grandparent
    refine leads_getCore (leads_getChain ?_)
    refine Leads.ite (fun ⟨waiting, old⟩ => ?_) fun _ => Leads.pure trivial
    have calm : t.core.isViewChange = false := by simpa using waiting
    refine leads_processBlockCommit (Evolves.mem reach processed) ?_ calm old ?_ ?_
    · rwa [same.1]
    · rwa [same.1]
    · rwa [same.1]
  · exact leads_getAncestors processed (fun _ _ _ _ _ _ _ => Leads.pure trivial) fun _ _ _ => Leads.pure trivial

/-! ## Votes -/

theorem leads_makeVote {block : Block} {f : Option Vote → M β} (processed : Event.process block ∈ s.log)
    (origin : block.author = s.chain.name ∨
      block.author = s.core.name ∧ ∃ qc, Event.assembled s.chain.name qc ∈ s.log)
    (height : block.height = s.chain.height ∨ block.qc.eq QC.genesis = true)
    (refused : Leads (Evolves got) (f none) s Q)
    (granted : ∀ t, Evolves got s t → Event.signed (.vote (.new block s.core.name)) ∈ t.log →
      Leads (Evolves got) (f (some (.new block s.core.name))) t Q) :
    Leads (Evolves got) (makeVote block >>= f) s Q := by
  unfold makeVote
  simp only [bind_assoc]
  refine leads_getCore (leads_getChain ?_)
  by_cases epoch : s.chain.epoch > block.epoch
  · simp only [if_pos epoch]
    exact refused
  by_cases leader : s.core.isViewChange = true ∧ block.author = s.core.leader
  · simp only [if_neg epoch, if_pos leader]
    exact refused
  simp only [if_neg epoch, if_neg leader, bind_assoc]
  refine leads_checkedAdd fun small => ?_
  split
  · rename_i safe
    have act : Evolves got s { s with
        chain := s.chain.lockVote block.height
        log := s.log ++ [.voted s.chain block] ++ [.signed (.vote (.new block s.core.name))] } :=
      .single (.grant processed origin height epoch leader safe.1 safe.2 (by simpa using small))
    have result := (granted _ act (by simp)).after act
    exact result
  · exact refused

theorem leads_addVote {vote : Vote} {f : Option QC → M β}
    (msg : got (.vote vote) ∧ vote.proposer = s.chain.name ∨
      Event.signed (.vote vote) ∈ s.log ∧ vote.author = s.core.name ∧ vote.proposer = s.core.name)
    (current : ¬ vote.height < s.chain.height) (verified : vote.verify s.core.committee = .ok ())
    (waiting : ∀ t, Evolves got s t → Leads (Evolves got) (f none) t Q)
    (complete : ∀ t qc, Evolves got s t → Event.assembled t.chain.name qc ∈ t.log →
      cue t.log = some (.assembled t.chain.name qc) → Leads (Evolves got) (f (some qc)) t Q) :
    Leads (Evolves got) (addVote vote >>= f) s Q := by
  have act : Evolves got s { s with
      chain := s.chain.countVote s.core.committee vote
      log := s.log ++ assembledEvents s.chain.name (s.chain.aggregator.addVote vote s.core.committee).1 } :=
    .single (.countVote msg current verified)
  unfold addVote
  rw [bind_assoc]
  refine leads_get ?_
  unfold Chain.countVote at act
  cases added : s.chain.aggregator.addVote vote s.core.committee with
  | mk result aggregator =>
      rw [added] at act
      have followed : Leads (Evolves got) (liftResult result >>= f)
          { s with
            chain := { s.chain with aggregator := aggregator }
            log := s.log ++ assembledEvents s.chain.name result } Q := by
        refine leads_liftResult fun option same => ?_
        subst same
        cases option with
        | none => exact waiting _ act
        | some qc => exact complete _ qc act (by simp [assembledEvents]) (cue_snoc _ _)
      have result := followed.after act
      exact result

/-- Where a vote that `handle_vote` takes comes from. -/
abbrev VoteOrigin (got : ConsensusMessage → Prop) (s : State) (vote : Vote) : Prop :=
  got (.vote vote) ∧ vote.proposer = s.chain.name ∨
    Event.signed (.vote vote) ∈ s.log ∧ vote.author = s.core.name ∧ vote.proposer = s.core.name

theorem leads_processBlockWith {handleVote : Vote → M Unit} {fuel : Nat} {block : Block}
    (run : ∀ vote t, VoteOrigin got t vote → Leads (Evolves got) (handleVote vote) t (fun _ _ => True))
    (origin : Origin got s.core s.chain s.log block) :
    Leads (Evolves got) (processBlockWith handleVote fuel block) s (fun _ _ => True) := by
  have act : Evolves got s
      { s with core := s.core.hold block, log := s.log ++ [.process block] } := .single (.process origin)
  suffices h : Leads (Evolves got) (do processAncestors fuel block; processBlockVote handleVote block)
      { s with core := s.core.hold block, log := s.log ++ [.process block] } (fun _ _ => True) by
    have result := h.after act
    exact result
  have processed : Event.process block ∈ s.log ++ [.process block] := by simp
  refine Leads.bind (leads_processAncestors processed) fun _ t reach _ => ?_
  refine leads_getChain ?_
  refine Leads.ite (fun height => ?_) fun _ => Leads.pure trivial
  have here : block.author = t.chain.name ∨
      block.author = t.core.name ∧ ∃ qc, Event.assembled t.chain.name qc ∈ t.log := by
    have whole : Evolves got s t := act.trans reach
    rw [Evolves.chainName whole, Evolves.name whole]
    exact origin.author_of.imp_right fun ⟨author, qc, assembled⟩ => ⟨author, qc, Evolves.mem whole assembled⟩
  refine leads_makeVote (Evolves.mem reach processed) here height (Leads.pure trivial) fun t' reach' signed => ?_
  refine leads_getCore ?_
  refine Leads.ite (fun own => ?_) fun _ => leads_last ?_
  · refine run _ t' (.inr ⟨signed, (Evolves.name reach').symm, own⟩)
  · exact leads_transmit (fun _ => (AbaAct.quiet (by trivial)).evolves) fun _ => Leads.pure trivial

theorem leads_broadcastProposeWith {handleVote : Vote → M Unit} {fuel : Nat} {block : Block}
    (run : ∀ vote t, VoteOrigin got t vote → Leads (Evolves got) (handleVote vote) t (fun _ _ => True))
    (signed : Event.signed (.block block) ∈ s.log) (author : block.author = s.core.name)
    (turn : s.chain.name = s.core.name ∨ ∃ qc, Event.assembled s.chain.name qc ∈ s.log) :
    Leads (Evolves got) (broadcastProposeWith handleVote fuel block) s (fun _ _ => True) := by
  refine leads_transmit (fun _ => (AbaAct.quiet (by trivial)).evolves) fun addresses => ?_
  refine leads_processBlockWith run (.own (by simpa using signed) author (turn.imp_right ?_))
  exact fun ⟨qc, assembled⟩ => ⟨qc, by simpa using assembled⟩

theorem leads_handleVote (fuel : Nat) (vote : Vote) (t : State) (msg : VoteOrigin got t vote) :
    Leads (Evolves got) (handleVote fuel vote) t (fun _ _ => True) := by
  induction fuel generalizing vote t with
  | zero => exact Leads.throw
  | succ fuel ih =>
      refine leads_getChain ?_
      refine Leads.ite (fun _ => Leads.pure trivial) fun current => ?_
      refine leads_getCore (leads_liftResult fun _ verified => ?_)
      refine leads_addVote msg current verified (fun _ _ => Leads.pure trivial) fun t' qc reach assembled last => ?_
      refine leads_processQc (.assembled assembled) fun above => ?_
      have turn : Event.assembled (t'.chain.certify t'.core.epoch qc).name qc ∈ t'.log := by
        simpa using assembled
      have cued : Cued (t'.chain.certify t'.core.epoch qc) t'.log := .certified (by simpa using last) above
      refine leads_generateProposal (.inr ⟨qc, turn⟩) cued fun block t'' reach' signed author => ?_
      refine leads_broadcastProposeWith (ih ·) signed author (.inr ⟨qc, ?_⟩)
      rw [Evolves.chainName reach']
      exact Evolves.mem reach' turn

theorem leads_processBlock {fuel : Nat} {block : Block} (origin : Origin got s.core s.chain s.log block) :
    Leads (Evolves got) (processBlock fuel block) s (fun _ _ => True) :=
  leads_processBlockWith (leads_handleVote fuel) origin

theorem leads_broadcastPropose {fuel : Nat} {block : Block} (signed : Event.signed (.block block) ∈ s.log)
    (author : block.author = s.core.name) (own : s.chain.name = s.core.name) :
    Leads (Evolves got) (broadcastPropose fuel block) s (fun _ _ => True) :=
  leads_broadcastProposeWith (leads_handleVote fuel) signed author (.inl own)

/-! ## Messages -/

theorem leads_handleProposal {fuel : Nat} {block : Block} (msg : got (.propose block) ∨ got (.syncReply block)) :
    Leads (Evolves got) (handleProposal fuel block) s (fun _ _ => True) := by
  refine leads_getChain (leads_liftResult fun _ named => ?_)
  have author : block.author = s.chain.name := by simpa [ensure] using named
  refine leads_getCore (leads_liftResult fun _ verified => ?_)
  refine leads_processQc (.proposal msg author verified) fun _ => ?_
  have certified : block.author = (s.chain.certify s.core.epoch block.qc).name := by simpa using author
  unfold verifyPayload
  simp only [bind_assoc]
  refine leads_emit (AbaAct.quiet (by trivial)).evolves (leads_get (leads_emit (.single (.status msg certified verified)) ?_))
  cases status : s.env.status with
  | accept =>
      exact leads_processBlock (.proposal msg certified verified (by simp))
  | reject => exact leads_error
  | wait => exact Leads.pure trivial

theorem leads_handleSyncRequest {digest : Digest} {sender : PublicKey} :
    Leads (AbaEvolves got) (handleSyncRequest digest sender) s (fun _ _ => True) := by
  refine leads_read AbaEvolves.env fun env => ?_
  split
  · exact Leads.pure trivial
  · refine leads_readBlock fun block _ => leads_last ?_
    exact leads_transmit (fun _ => (AbaAct.quiet (by trivial)).abaEvolves) fun _ => Leads.pure trivial

end Core
end HotstuffDag
