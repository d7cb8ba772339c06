import HotstuffDag.Proof.Assembled
import HotstuffDag.Proof.VoteOnce

/-! # One proposal for each height

A proposal takes its height and its epoch from the chain that the certificate before it was assembled
on. On the own chain they have not been used yet. -/

namespace HotstuffDag
open Library

section
variable {got : ConsensusMessage → Prop}

/-! ## What a proposal follows -/

/-- The events that a proposal follows, and proposals. -/
def Event.ofProposal : Event → Prop
  | .assembled _ _ | .epochEnd _ _ _ | .signed (.block _) => True
  | _ => False

theorem Event.not_ofProposal_of_aba {e : Event} (h : e.ofAba) : ¬ e.ofProposal := by
  cases e with
  | signed x => cases x <;> simp_all [ofAba, ofProposal]
  | _ => simp_all [ofAba, ofProposal]

theorem Event.not_ofProposal_of_commit {e : Event} (h : e.ofCommit) : ¬ e.ofProposal := by
  cases e <;> simp_all [ofCommit, ofProposal]

theorem cue_append (l more : List Event) : cue (l ++ more) = cue l ∨ ∃ e ∈ more, cue (l ++ more) = some e := by
  have last : cue (l ++ more) = (cue more).or (cue l) := by
    rw [cue, List.filter_append, List.getLast?_append]
    rfl
  cases found : cue more with
  | none => exact .inl (by rw [last, found, Option.none_or])
  | some e =>
      have mem := List.mem_of_getLast? found
      exact .inr ⟨e, (List.mem_filter.mp mem).1, by rw [last, found, Option.some_or]⟩

theorem cue_mem {l : List Event} {e : Event} (h : cue l = some e) : e ∈ l :=
  (List.mem_filter.mp (List.mem_of_getLast? h)).1

theorem not_mem_of_cue {l : List Event} (h : cue l = none) {e : Event} (counts : e.isGet = false) : e ∉ l := by
  intro mem
  have empty := List.getLast?_eq_none_iff.mp h
  have kept : e ∈ l.filter fun e => !e.isGet := List.mem_filter.mpr ⟨mem, by rw [counts]; rfl⟩
  rw [empty] at kept
  exact List.not_mem_nil kept

/-- What an act is to the proposals of the node. -/
inductive ProposeCase (s s' : Conf) : Prop
  | proposed {b : Block} (height : b.height = s.chain.height) (epoch : b.epoch = s.chain.epoch)
      (turn : s.chain.name = s.core.name ∨ ∃ qc, Event.assembled s.chain.name qc ∈ s.log) (cued : Cued s.chain s.log)
      (chain : s'.chain = s.chain) (log : s'.log = s.log ++ [.signed (.block b)])
  | assembled {qc : QC} (current : s.chain.height ≤ qc.height) (epoch : s'.chain.epoch = s.chain.epoch)
      (height : s'.chain.height = s.chain.height) (log : s'.log = s.log ++ [.assembled s.chain.name qc])
  | ended {val : UInt64} (next : s'.chain.epoch.toNat = s.chain.epoch.toNat + 1)
      (log : s'.log = s.log ++ [.epochEnd s.core s.chain val])
  | other (more : List Event) (log : s'.log = s.log ++ more) (neutral : ∀ e ∈ more, ¬ e.ofProposal)
      (epoch : s'.chain.epoch = s.chain.epoch) (height : s.chain.height ≤ s'.chain.height)

theorem Act.proposeCase [Crypto] [Bincode] {s s' : Conf} (act : Act got s s') : ProposeCase s s' := by
  cases act with
  | aba act =>
      obtain ⟨more, log, each⟩ := act.more
      exact .other more log (fun e mem => Event.not_ofProposal_of_aba (each e mem)) rfl (UInt64.le_refl _)
  | @commit fuel env k c l b _ =>
      have frame := Core.commit_frame fuel b ⟨k, c, l, env⟩
      obtain ⟨more, log, each⟩ := frame.log
      refine .other more log (fun e mem => Event.not_ofProposal_of_commit (each e mem)) ?_ ?_
      · exact frame.chain_eq Chain.epoch fun _ => rfl
      · exact (frame.chain_eq Chain.height fun _ => rfl) ▸ UInt64.le_refl _
  | certify _ small =>
      refine .other [] (List.append_nil _).symm (fun e mem => absurd mem List.not_mem_nil) ?_ ?_
      · exact Chain.certify_epoch _ _ _
      · exact Chain.height_le_certify small
  | propose _ turn cued => exact .proposed rfl rfl turn cued rfl rfl
  | @countVote k c l v _ current _ =>
      unfold Core.assembledEvents
      split
      · rename_i qc added
        refine .assembled ?_ rfl rfl rfl
        rw [(Aggregator.addVote_some added).2]
        exact UInt64.not_lt.mp current
      · exact .other [] rfl (fun e mem => absurd mem List.not_mem_nil) rfl (UInt64.le_refl _)
  | nextEpoch _ _ _ _ _ _ small _ => exact .ended (toNat_succ small) rfl
  | grant =>
      refine .other [_, _] (List.append_assoc _ _ _) (fun e mem => ?_) rfl (UInt64.le_refl _)
      rcases List.mem_cons.mp mem with rfl | mem
      · exact id
      · rw [List.mem_singleton.mp mem]
        exact id
  | countTimeout =>
      refine .other _ rfl (fun e mem => ?_) rfl (UInt64.le_refl _)
      unfold Core.savedTcs at mem
      split at mem
      · rw [List.mem_singleton.mp mem]
        exact id
      · exact absurd mem List.not_mem_nil
  | lockVote =>
      exact .other [] (List.append_nil _).symm (fun e mem => absurd mem List.not_mem_nil) rfl (UInt64.le_refl _)
  | _ =>
      refine .other [_] rfl (fun e mem => ?_) rfl (UInt64.le_refl _)
      rw [List.mem_singleton.mp mem]
      exact id

/-! ## The invariant -/

/-- Two signed blocks of one epoch and height are the same. -/
def BlocksOnce (l : List Event) : Prop :=
  ∀ b b', Event.signed (.block b) ∈ l → Event.signed (.block b') ∈ l → b.epoch = b'.epoch → b.height = b'.height →
    b = b'

/-- The blocks signed so far lie below the own chain, and strictly below a proposal that is due. -/
structure BlocksBelow (name : PublicKey) (c : Chain) (l : List Event) : Prop where
  bound : ∀ b, Event.signed (.block b) ∈ l → b.epoch < c.epoch ∨ b.epoch = c.epoch ∧ b.height ≤ c.height
  certified : ∀ qc, cue l = some (.assembled name qc) → ∀ b, Event.signed (.block b) ∈ l → b.epoch = c.epoch →
    b.height ≤ qc.height
  ended : ∀ k c' val, cue l = some (.epochEnd k c' val) → c'.name = name → ∀ b, Event.signed (.block b) ∈ l →
    b.epoch < c.epoch

namespace BlocksBelow
variable {name : PublicKey} {c c' : Chain} {l : List Event}

/-- A proposal that is due uses a new height. -/
theorem fresh (h : BlocksBelow name c l) (cued : Cued c l) (named : c.name = name) {b : Block}
    (signed : Event.signed (.block b) ∈ l) (epoch : b.epoch = c.epoch) : b.height < c.height := by
  cases cued with
  | start first => exact absurd signed (not_mem_of_cue first rfl)
  | certified last above =>
      rw [named] at last
      exact UInt64.lt_of_le_of_lt (h.certified _ last b signed epoch) above
  | ended last same =>
      have earlier := h.ended _ _ _ last (same.trans named) b signed
      rw [epoch] at earlier
      exact absurd earlier (UInt64.lt_irrefl _)

/-- Other events leave the blocks below a chain that has only grown. -/
theorem keep (h : BlocksBelow name c l) {more : List Event} (neutral : ∀ e ∈ more, ¬ e.ofProposal)
    (epoch : c'.epoch = c.epoch) (height : c.height ≤ c'.height) : BlocksBelow name c' (l ++ more) := by
  have old (b : Block) (signed : Event.signed (.block b) ∈ l ++ more) : Event.signed (.block b) ∈ l :=
    (List.mem_append.mp signed).resolve_right fun new => neutral _ new trivial
  have last (e : Event) (follows : e.ofProposal) (found : cue (l ++ more) = some e) : cue l = some e := by
    rcases cue_append l more with same | ⟨e', mem, found'⟩
    · rw [← same, found]
    · rw [found] at found'
      exact absurd follows (Option.some.inj found' ▸ neutral e' mem)
  refine ⟨fun b signed => ?_, fun qc found b signed same => ?_, fun k c₀ val found named b signed => ?_⟩
  · rw [epoch]
    exact (h.bound b (old b signed)).imp_right fun ⟨same, bound⟩ => ⟨same, UInt64.le_trans bound height⟩
  · exact h.certified qc (last _ trivial found) b (old b signed) (same.trans epoch)
  · rw [epoch]
    exact h.ended k c₀ val (last _ trivial found) named b (old b signed)

theorem propose (h : BlocksBelow name c l) {b : Block} (height : b.height = c.height) (epoch : b.epoch = c.epoch) :
    BlocksBelow name c (l ++ [.signed (.block b)]) := by
  have last : cue (l ++ [.signed (.block b)]) = some (.signed (.block b)) := cue_snoc _ _
  refine ⟨fun b' signed => ?_, fun qc found => ?_, fun k c₀ val found => ?_⟩
  · rcases List.mem_append.mp signed with old | new
    · exact h.bound b' old
    · simp only [List.mem_singleton, Event.signed.injEq, Signed.block.injEq] at new
      rw [new, height, epoch]
      exact .inr ⟨rfl, UInt64.le_refl _⟩
  · rw [last] at found
    simp at found
  · rw [last] at found
    simp at found

/-- A certificate is assembled at or above the height of its chain. -/
theorem assemble (h : BlocksBelow name c l) {chain : PublicKey} {qc : QC} (current : chain = name → c.height ≤ qc.height)
    (epoch : c'.epoch = c.epoch) (height : c'.height = c.height) :
    BlocksBelow name c' (l ++ [.assembled chain qc]) := by
  have last : cue (l ++ [.assembled chain qc]) = some (.assembled chain qc) := cue_snoc _ _
  have old (b : Block) (signed : Event.signed (.block b) ∈ l ++ [.assembled chain qc]) : Event.signed (.block b) ∈ l := by
    simpa using signed
  refine ⟨fun b signed => ?_, fun qc' found b signed same => ?_, fun k c₀ val found => ?_⟩
  · rw [epoch, height]
    exact h.bound b (old b signed)
  · rw [last, Option.some.injEq, Event.assembled.injEq] at found
    rw [← found.2]
    rcases h.bound b (old b signed) with earlier | ⟨-, bound⟩
    · rw [← epoch, same] at earlier
      exact absurd earlier (UInt64.lt_irrefl _)
    · exact UInt64.le_trans bound (current found.1)
  · rw [last] at found
    simp at found

/-- The end of an epoch concerns the chain that is restarted. -/
theorem endEpoch (h : BlocksBelow name c l) {k : Core} {c₀ : Chain} {val : UInt64}
    (next : c₀.name = name ∧ c'.epoch.toNat = c.epoch.toNat + 1 ∨
      c₀.name ≠ name ∧ c'.epoch = c.epoch ∧ c'.height = c.height) :
    BlocksBelow name c' (l ++ [.epochEnd k c₀ val]) := by
  have last : cue (l ++ [.epochEnd k c₀ val]) = some (.epochEnd k c₀ val) := cue_snoc _ _
  have old (b : Block) (signed : Event.signed (.block b) ∈ l ++ [.epochEnd k c₀ val]) : Event.signed (.block b) ∈ l := by
    simpa using signed
  have later (restarted : c'.epoch.toNat = c.epoch.toNat + 1) (b : Block) (signed : Event.signed (.block b) ∈ l) :
      b.epoch < c'.epoch := by
    rw [UInt64.lt_iff_toNat_lt, restarted]
    rcases h.bound b signed with earlier | ⟨same, -⟩
    · rw [UInt64.lt_iff_toNat_lt] at earlier
      exact Nat.lt_succ_of_lt earlier
    · rw [same]
      exact Nat.lt_succ_self _
  refine ⟨fun b signed => ?_, fun qc found => ?_, fun k' c₁ val' found named b signed => ?_⟩
  · rcases next with ⟨-, restarted⟩ | ⟨-, epoch, height⟩
    · exact .inl (later restarted b (old b signed))
    · rw [epoch, height]
      exact h.bound b (old b signed)
  · rw [last] at found
    simp at found
  · rw [last, Option.some.injEq, Event.epochEnd.injEq] at found
    rcases next with ⟨-, restarted⟩ | ⟨foreign, -⟩
    · exact later restarted b (old b signed)
    · rw [found.2.1] at foreign
      exact absurd named foreign

end BlocksBelow

def BlockInvariant (v : View) (k : Core) (l : List Event) : Prop :=
  OwnAssembled k.name l → BlocksOnce l ∧ ∀ c, v k.name = some c → BlocksBelow k.name c l

theorem BlocksBelow.act [Crypto] [Bincode] {s s' : Conf} (act : Act got s s') (own : OwnAssembled s.core.name s.log)
    (h : ∀ c, view s.core s.chain s.core.name = some c → BlocksBelow s.core.name c s.log) {c' : Chain}
    (found : view s'.core s'.chain s.core.name = some c') : BlocksBelow s.core.name c' s'.log := by
  obtain ⟨c, found', which⟩ := act.view_back found
  have below := h c found'
  cases act.proposeCase with
  | proposed height epoch turn _ chain log =>
      have named : s.chain.name = s.core.name := turn.elim id fun ⟨qc, assembled⟩ => own _ qc assembled
      obtain ⟨-, rfl, rfl⟩ := which.resolve_right fun h => h.1 named
      rw [log, chain]
      exact below.propose height epoch
  | assembled current epoch height log =>
      rw [log]
      rcases which with ⟨-, rfl, rfl⟩ | ⟨foreign, same⟩
      · exact below.assemble (fun _ => current) epoch height
      · exact below.assemble (fun named => absurd named foreign) (Chain.uncommitted_eq Chain.epoch (fun _ => rfl) same)
          (Chain.uncommitted_eq Chain.height (fun _ => rfl) same)
  | ended next log =>
      rw [log]
      rcases which with ⟨named, rfl, rfl⟩ | ⟨foreign, same⟩
      · exact below.endEpoch (.inl ⟨named, next⟩)
      · exact below.endEpoch (.inr ⟨foreign, Chain.uncommitted_eq Chain.epoch (fun _ => rfl) same,
          Chain.uncommitted_eq Chain.height (fun _ => rfl) same⟩)
  | other more log neutral epoch height =>
      rw [log]
      rcases which with ⟨-, rfl, rfl⟩ | ⟨-, same⟩
      · exact below.keep neutral epoch height
      · exact below.keep neutral (Chain.uncommitted_eq Chain.epoch (fun _ => rfl) same)
          (UInt64.le_of_eq (Chain.uncommitted_eq Chain.height (fun _ => rfl) same).symm)

theorem BlocksOnce.act [Crypto] [Bincode] {s s' : Conf} (act : Act got s s') (own : OwnAssembled s.core.name s.log)
    (below : ∀ c, view s.core s.chain s.core.name = some c → BlocksBelow s.core.name c s.log) (h : BlocksOnce s.log) :
    BlocksOnce s'.log := by
  have keep (old : ∀ b, Event.signed (.block b) ∈ s'.log → Event.signed (.block b) ∈ s.log) : BlocksOnce s'.log :=
    fun b b' signed signed' => h b b' (old b signed) (old b' signed')
  cases act.proposeCase with
  | @proposed b height epoch turn cued _ log =>
      have named : s.chain.name = s.core.name := turn.elim id fun ⟨qc, assembled⟩ => own _ qc assembled
      have lower (b' : Block) (signed : Event.signed (.block b') ∈ s.log) (same : b'.epoch = b.epoch) :
          b'.height ≠ b.height := by
        have below := below s.chain (named ▸ view_self _ _)
        rw [height]
        exact UInt64.ne_of_lt (below.fresh cued named signed (same.trans epoch))
      intro x y signed signed' sameEpoch sameHeight
      simp only [log, List.mem_append, List.mem_singleton, Event.signed.injEq, Signed.block.injEq] at signed signed'
      rcases signed with old | rfl
      · rcases signed' with old' | rfl
        · exact h x y old old' sameEpoch sameHeight
        · exact absurd sameHeight (lower x old sameEpoch)
      · rcases signed' with old' | rfl
        · exact absurd sameHeight.symm (lower y old' sameEpoch.symm)
        · rfl
  | assembled _ _ _ log | ended _ log =>
      refine keep fun b signed => ?_
      rw [log] at signed
      simpa using signed
  | other more log neutral =>
      refine keep fun b signed => ?_
      rw [log] at signed
      exact (List.mem_append.mp signed).resolve_right fun new => neutral _ new trivial

theorem blockInvariant [Crypto] [Bincode] (ok : Input → Prop) : Invariant ok BlockInvariant where
  act := by
    intro s s' _ act h own
    rw [act.frame.name] at own
    have before := own.before act.frame.log
    obtain ⟨once, below⟩ := h before
    refine ⟨once.act act before below, fun c found => ?_⟩
    rw [act.frame.name] at found ⊢
    exact BlocksBelow.act act before below found
  blind := fun _ _ h => h
  makePayload := by
    intro v k l transactions h own
    obtain ⟨once, below⟩ := h (own.before (List.prefix_append _ _))
    refine ⟨fun b b' signed signed' => once b b' (by simpa using signed) (by simpa using signed'), fun c found => ?_⟩
    refine (below c found).keep (fun e mem => ?_) rfl (UInt64.le_refl _)
    rw [List.mem_singleton.mp mem]
    exact id
  storePayload := fun _ _ h => h

/-- No two blocks the node has signed have one epoch and height and different digests. -/
def NoEquivocation [Crypto] (l : List Event) : Prop :=
  ∀ b b', Event.signed (.block b) ∈ l → Event.signed (.block b') ∈ l → b.epoch = b'.epoch → b.height = b'.height →
    b.digest = b'.digest

/-- In a run in which certificates are assembled on the own chain only, and heights leave room, a node does not equivocate. -/
theorem blocks_once [Crypto] [Bincode] (name : PublicKey) (committee : Committee) (parameters : Parameters) (store : Store) (env : Env)
    (inputs : List Input) (_roomy : RoomyRun name committee store inputs)
    (own : OwnAssembled name ((Node.start (Core.new name committee parameters store) env).run inputs).log) :
    NoEquivocation ((Node.start (Core.new name committee parameters store) env).run inputs).log := by
  have inv := (identityInvariant (fun _ => True) name committee).and (blockInvariant fun _ => True)
  have start : (Node.start (Core.new name committee parameters store) env).Sound _ :=
    inv.init ⟨⟨rfl, rfl⟩, fun _ => ⟨fun b b' h => by simp at h,
      fun c _ => ⟨fun b h => by simp at h, fun qc _ b h => by simp at h, fun k c' val _ _ b h => by simp at h⟩⟩⟩
  obtain ⟨_, ⟨named, -⟩, blocks⟩ := (inv.run (fun i _ => trivial) start).2
  have once := (blocks (by rw [named]; exact own)).1
  intro b b' signed signed' epoch height
  rw [once b b' signed signed' epoch height]

end

/-! ## A foreign certificate -/

namespace Sample

/-- The first node signs two blocks of its own at height two. -/
theorem double_proposal : ¬ NoEquivocation ((start 1).run foreignVotes).log := by
  have blocks : ∃ b ∈ signedBlocks ((start 1).run foreignVotes).log,
      ∃ b' ∈ signedBlocks ((start 1).run foreignVotes).log,
      b.epoch = b'.epoch ∧ b.height = b'.height ∧ b.digest ≠ b'.digest := by
    decide +kernel
  intro once
  obtain ⟨b, mem, b', mem', epoch, height, different⟩ := blocks
  exact different (once b b' (mem_signedBlocks.mp mem) (mem_signedBlocks.mp mem') epoch height)

theorem ownVotes_blocks : NoEquivocation ((start 1).run ownVotes).log :=
  blocks_once (key 1) four ⟨500⟩ Library.Map.empty env ownVotes (roomyRun_of (by decide +kernel) (by decide)) ownVotes_assembled

end Sample
end HotstuffDag
