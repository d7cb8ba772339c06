import HotstuffDag.Proof.AbaValidity
import HotstuffDag.Proof.HashLinks
import HotstuffDag.Proof.TimeoutLock
import HotstuffDag.Proof.TimeoutQuorums
import Mathlib.Data.Nat.Count

/-! # The fast path and the view change

A block that is committed by the 2-chain rule has a quorum of votes for the block above it. A voter that times
out in the same epoch states a height that is no lower, and so does every certificate of timeouts. -/

namespace HotstuffDag
open Library Library.Exec

section

/-! ## Epochs of a chain -/

/-- In how many epochs before this one the authority has led. -/
def ledBefore (leader : SeqNumber → PublicKey) (name : PublicKey) (epoch : SeqNumber) : Nat :=
  Nat.count (fun e => leader (UInt64.ofNat e) = name) epoch.toNat

theorem ledBefore_succ {leader : SeqNumber → PublicKey} {name : PublicKey} {epoch : SeqNumber}
    (small : epoch.toNat + 1 < 2 ^ 64) :
    ledBefore leader name (epoch + 1) = ledBefore leader name epoch + if leader epoch = name then 1 else 0 := by
  unfold ledBefore
  rw [toNat_succ small, Nat.count_succ, UInt64.ofNat_toNat]

theorem ledBefore_lt {leader : SeqNumber → PublicKey} {epoch epoch' : SeqNumber} (later : epoch < epoch') :
    ledBefore leader (leader epoch) epoch < ledBefore leader (leader epoch) epoch' := by
  apply Nat.count_strict_mono
  · rw [UInt64.ofNat_toNat]
  · exact UInt64.lt_iff_toNat_lt.mp later

/-- The chain has moved on: to a later epoch, or to a certificate that is no lower. -/
structure Chain.Precedes (c c' : Chain) : Prop where
  epoch : c.epoch ≤ c'.epoch
  high : c.epoch = c'.epoch → c.highQc.height ≤ c'.highQc.height

namespace Chain.Precedes
variable {c c' c'' : Chain}

theorem refl (c : Chain) : c.Precedes c := ⟨UInt64.le_refl _, fun _ => UInt64.le_refl _⟩

theorem trans (h : c.Precedes c') (h' : c'.Precedes c'') : c.Precedes c'' := by
  refine ⟨UInt64.le_trans h.epoch h'.epoch, fun same => ?_⟩
  have first : c.epoch = c'.epoch := UInt64.le_antisymm h.epoch (same ▸ h'.epoch)
  exact UInt64.le_trans (h.high first) (h'.high (first.symm.trans same))

theorem uncommitted (same : c'.uncommitted = c.uncommitted) : c.Precedes c' := by
  constructor
  · rw [Chain.uncommitted_eq Chain.epoch (fun _ => rfl) same]
    exact UInt64.le_refl _
  · intro _
    rw [Chain.uncommitted_eq Chain.highQc (fun _ => rfl) same]
    exact UInt64.le_refl _

end Chain.Precedes

variable {got : ConsensusMessage → Prop}

/-- What an act does to the epochs of the core and of its chain. -/
inductive EpochCase (s s' : Conf) : Prop
  | same (epoch : s'.core.epoch = s.core.epoch) (chain : s'.chain.epoch = s.chain.epoch)
      (high : s.chain.highQc.height ≤ s'.chain.highQc.height)
  | next (leader : s.chain.name = s.core.leader) (epoch : s'.core.epoch = s.core.epoch + 1)
      (small : s.core.epoch.toNat + 1 < 2 ^ 64) (chain : s'.chain.epoch.toNat = s.chain.epoch.toNat + 1)

variable [Crypto] [Bincode]

theorem Act.epochCase {s s' : Conf} (act : Act got s s') : EpochCase s s' := by
  cases act with
  | aba act => exact .same act.frame.epoch rfl (UInt64.le_refl _)
  | @commit fuel env k c l b _ =>
      have frame := Core.commit_frame fuel b ⟨k, c, l, env⟩
      apply EpochCase.same
      · exact frame.core_eq Core.epoch fun _ _ => rfl
      · exact frame.chain_eq Chain.epoch fun _ => rfl
      · rw [show ((final (Core.commit fuel b) ⟨k, c, l, env⟩).conf.chain.highQc = c.highQc) from
          frame.chain_eq Chain.highQc fun _ => rfl]
        exact UInt64.le_refl _
  | @certify k c l qc =>
      refine .same rfl (c.certify_epoch k.epoch qc) ?_
      dsimp only
      rw [(c.certify_entries k.epoch qc).2.1]
      split
      · rename_i higher
        exact UInt64.le_of_lt higher
      · exact UInt64.le_refl _
  | nextEpoch _ leader _ _ _ small smallChain => exact .next leader rfl small (toNat_succ smallChain)
  | _ => exact .same rfl rfl (UInt64.le_refl _)

omit [Crypto] [Bincode] in
theorem EpochCase.precedes {s s' : Conf} (h : EpochCase s s') : s.chain.Precedes s'.chain := by
  cases h with
  | same _ chain high =>
      constructor
      · rw [chain]
        exact UInt64.le_refl _
      · exact fun _ => high
  | next _ _ _ chain =>
      constructor
      · rw [UInt64.le_iff_toNat_le, chain]
        exact Nat.le_succ _
      · intro same
        rw [← same] at chain
        exact absurd chain.symm (Nat.succ_ne_self _)

/-! ## Why the events are logged -/

def Event.ofFastPath : Event → Prop
  | .voted _ _ | .twoChain _ _ _ _ _ | .epochEnd _ _ _ => True
  | _ => False

/-- The guards of a vote, of a 2-chain commit and of the end of an epoch. -/
inductive FastReason (s : Conf) : Event → Prop
  | voted {b : Block} (unlocked : ¬ (s.core.isViewChange = true ∧ b.author = s.core.leader)) : FastReason s (.voted s.chain b)
  | twoChain {b b0 b1 : Block} (processed : Event.process b ∈ s.log) (leader : s.core.leader = b0.author)
      (parent : Fetched s.core.store b.parent b1) (grandparent : Fetched s.core.store b1.parent b0)
      (next : b0.height + 1 = b1.height) (small : b0.height.toNat + 1 < 2 ^ 64) :
      FastReason s (.twoChain s.core s.chain b b0 b1)
  | epochEnd {val : UInt64} (output : s.core.abaOutputVal = some val) : FastReason s (.epochEnd s.core s.chain val)

theorem Act.fastReason {s s' : Conf} (act : Act got s s') {e : Event} (h : e ∈ s'.log) (about : e.ofFastPath) :
    e ∈ s.log ∨ FastReason s e := by
  have last {e' : Event} (mem : e ∈ s.log ++ [e']) (why : e'.ofFastPath → FastReason s e') : e ∈ s.log ∨ FastReason s e := by
    refine (List.mem_append.mp mem).imp_right fun new => ?_
    obtain rfl := List.mem_singleton.mp new
    exact why about
  cases act with
  | aba act =>
      refine .inl ((act.events h).resolve_right fun other => ?_)
      cases e <;> simp_all [Event.ofAba, Event.ofFastPath]
  | @commit fuel env k c l b _ =>
      refine .inl (((Core.commit_frame fuel b ⟨k, c, l, env⟩).events h).resolve_right fun other => ?_)
      cases e <;> simp_all [Event.ofCommit, Event.ofFastPath]
  | twoChain processed _ _ _ leader parent grandparent next small =>
      exact last h fun _ => .twoChain processed leader parent grandparent next small
  | grant _ _ _ _ unlocked =>
      rcases List.mem_append.mp h with h | new
      · exact last h fun _ => .voted unlocked
      · rw [List.mem_singleton.mp new] at about
        exact about.elim
  | nextEpoch _ _ output => exact last h fun _ => .epochEnd output
  | countVote =>
      refine .inl ((List.mem_append.mp h).resolve_right fun new => ?_)
      unfold Core.assembledEvents at new
      split at new <;> simp_all [Event.ofFastPath]
  | countTimeout =>
      refine .inl ((List.mem_append.mp h).resolve_right fun new => ?_)
      unfold Core.savedTcs at new
      split at new <;> simp_all [Event.ofFastPath]
  | certify | lockVote => exact .inl h
  | _ => exact last h False.elim

/-! ## Votes and timeouts of a node -/

/-- The chains know how often their authors have led, and every timeout states at least what the node knew at
its votes for the same leader in the same epoch of his chain. -/
structure Forthright (committee : Committee) (v : View) (k : Core) (l : List Event) : Prop where
  lock : Locked committee k l
  epochs : ∀ name c, v name = some c → c.epoch.toNat = ledBefore committee.getLeader name k.epoch
  votes : ∀ cast b, Event.voted cast b ∈ l → ∀ c, v cast.name = some c → cast.Precedes c
  stated : ∀ cast b t, Event.voted cast b ∈ l → b.author = cast.name → Event.signed (.timeout t) ∈ l →
    committee.getLeader t.epoch = cast.name → cast.epoch.toNat = ledBefore committee.getLeader cast.name t.epoch →
    cast.highQc.height ≤ t.highQc.height

namespace Forthright
variable {committee : Committee} {s s' : Conf}

omit [Crypto] [Bincode] in
theorem leader (h : Forthright committee (view s.core s.chain) s.core s.log) : s.core.leader = committee.getLeader s.core.epoch := by
  rw [Core.leader, h.lock.committee]

theorem precedes (act : Act got s s') {name : PublicKey} {c' : Chain} (found : view s'.core s'.chain name = some c') :
    ∃ c, view s.core s.chain name = some c ∧ c.Precedes c' := by
  obtain ⟨c, before, which⟩ := act.view_back found
  refine ⟨c, before, ?_⟩
  rcases which with ⟨-, rfl, rfl⟩ | ⟨-, same⟩
  · exact act.epochCase.precedes
  · exact .uncommitted same

theorem act (act : Act got s s') (h : Forthright committee (view s.core s.chain) s.core s.log) :
    Forthright committee (view s'.core s'.chain) s'.core s'.log := by
  have own : view s.core s.chain s.chain.name = some s.chain := view_self _ _
  refine ⟨h.lock.act act, fun name c' found => ?_, fun cast b voted c' found => ?_, fun cast b t voted author signed led epoch => ?_⟩
  · obtain ⟨c, before, which⟩ := act.view_back found
    have pace := h.epochs name c before
    cases act.epochCase with
    | same epoch chain =>
        rw [epoch, ← pace]
        rcases which with ⟨-, rfl, rfl⟩ | ⟨-, same⟩
        · rw [chain]
        · rw [Chain.uncommitted_eq Chain.epoch (fun _ => rfl) same]
    | next leader epoch small chain =>
        rw [epoch, ledBefore_succ small, ← pace]
        have elected := leader.trans h.leader
        rcases which with ⟨rfl, rfl, rfl⟩ | ⟨other, same⟩
        · rw [if_pos elected.symm, chain]
        · rw [if_neg fun led => other (elected.trans led), Chain.uncommitted_eq Chain.epoch (fun _ => rfl) same]
          rfl
  · obtain ⟨c, before, moved⟩ := precedes act found
    rcases act.fastReason voted trivial with old | reason
    · exact (h.votes cast b old c before).trans moved
    · cases reason with
      | voted =>
          obtain rfl := Option.some.inj (own.symm.trans before)
          exact moved
  · rcases act.reason signed with oldTimeout | timeout
    · rcases act.fastReason voted trivial with old | reason
      · exact h.stated cast b t old author oldTimeout led epoch
      · cases reason with
        | voted unlocked =>
            exfalso
            have pace := h.epochs _ _ own
            rcases h.lock.timeouts t oldTimeout with past | ⟨current, changing⟩
            · have more : ledBefore committee.getLeader _ _ < ledBefore committee.getLeader _ _ := ledBefore_lt past
              rw [led] at more
              omega
            · refine unlocked ⟨changing, ?_⟩
              rw [h.leader, ← current, led, author]
    · cases timeout with
      | aba about => exact about.elim
      | commit about => exact about.elim
      | timeout leader =>
          show cast.highQc.height ≤ s.chain.highQc.height
          have pace := h.epochs _ _ own
          have led : committee.getLeader s.core.epoch = cast.name := led
          have epoch : cast.epoch.toNat = ledBefore committee.getLeader cast.name s.core.epoch := epoch
          have named : cast.name = s.chain.name := by rw [leader, h.leader, led]
          have same : cast.epoch = s.chain.epoch := by
            apply UInt64.toNat_inj.mp
            rw [epoch, named, pace]
          rcases act.fastReason voted trivial with old | reason
          · exact (h.votes cast b old s.chain (by rw [named]; exact own)).high same
          · cases reason with
            | voted => exact UInt64.le_refl _

end Forthright

/-! ## 2-chain commits of a node -/

/-- The block is stored under its digest, or it is the genesis in place of a block of that digest. -/
theorem StoreSound.fetched {k : Core} (sound : StoreSound k) {d : Digest} {b : Block} (fetched : Fetched k.store d b) :
    d = QC.genesis.hash ∧ b = Block.genesis ∨ b.digest = d := by
  refine fetched.imp_right fun ⟨value, stored, decodes⟩ => ?_
  exact sound d value b stored decodes

/-- What a 2-chain commit shows. -/
structure FastCommit (committee : Committee) (l : List Event) (k : Core) (c : Chain) (b b0 b1 : Block) : Prop where
  processed : Event.process b ∈ l
  leader : committee.getLeader k.epoch = b0.author
  elected : k.leader = committee.getLeader k.epoch
  epoch : c.epoch.toNat = ledBefore committee.getLeader c.name k.epoch
  parent : b.parent = QC.genesis.hash ∧ b1 = Block.genesis ∨ b1.digest = b.parent
  grandparent : b1.parent = QC.genesis.hash ∧ b0 = Block.genesis ∨ b0.digest = b1.parent
  next : b0.height.toNat + 1 = b1.height.toNat

structure FastCommits (committee : Committee) (v : View) (k : Core) (l : List Event) : Prop where
  forthright : Forthright committee v k l
  store : StoreSound k
  commits : ∀ k' c b b0 b1, Event.twoChain k' c b b0 b1 ∈ l → FastCommit committee l k' c b b0 b1

omit [Bincode] in
theorem FastCommit.mono {committee : Committee} {l l' : List Event} {k : Core} {c : Chain} {b b0 b1 : Block}
    (h : FastCommit committee l k c b b0 b1) (le : l <+: l') : FastCommit committee l' k c b b0 b1 :=
  ⟨le.subset h.processed, h.leader, h.elected, h.epoch, h.parent, h.grandparent, h.next⟩

theorem fastCommitsInvariant {ok : Input → Prop} (committee : Committee)
    (payloads : ∀ payload, ok (.storePayload payload) → Bincode.blockOfPayload payload = none) :
    Invariant ok (FastCommits committee) where
  act := by
    intro s s' _ act h
    refine ⟨h.forthright.act act, act.storeSound h.store, fun k c b b0 b1 committed => ?_⟩
    apply FastCommit.mono _ act.frame.log
    rcases act.fastReason committed trivial with old | reason
    · exact h.commits k c b b0 b1 old
    · cases reason with
      | twoChain processed leader parent grandparent next small =>
          refine ⟨processed, ?_, h.forthright.leader, h.forthright.epochs _ _ (view_self _ _), h.store.fetched parent,
            h.store.fetched grandparent, ?_⟩
          · rw [← h.forthright.leader]
            exact leader
          · rw [← next, toNat_succ small]
  blind := fun _ _ h => ⟨⟨h.forthright.lock.congr rfl rfl id, h.forthright.epochs, h.forthright.votes, h.forthright.stated⟩, h.store, h.commits⟩
  makePayload := by
    intro v k l transactions h
    have le := List.prefix_append l [.signed (.payload (.new transactions k.name))]
    refine ⟨⟨h.forthright.lock.concat id, h.forthright.epochs, fun cast b voted => ?_, fun cast b t voted author signed => ?_⟩, h.store,
      fun k' c b b0 b1 committed => ?_⟩
    · exact h.forthright.votes cast b (by simpa using voted)
    · exact h.forthright.stated cast b t (by simpa using voted) author (by simpa using signed)
    · exact (h.commits k' c b b0 b1 (by simpa using committed)).mono le
  storePayload := by
    intro v k l payload allowed h
    refine ⟨⟨h.forthright.lock.congr rfl rfl id, h.forthright.epochs, h.forthright.votes, h.forthright.stated⟩, ?_, h.commits⟩
    intro d value b stored decodes
    rcases stored_insert_payload stored decodes with read | old
    · rw [payloads payload allowed] at read
      contradiction
    · exact h.store d value b old decodes

/-! ## Ends of epochs -/

/-- An epoch ends with an output that was set in it. -/
structure Concluded (k : Core) (l : List Event) : Prop where
  output : ∀ v, k.abaOutputVal = some v → ∃ r, Event.abaOutput k.epoch r v ∈ l
  ended : ∀ k' c v, Event.epochEnd k' c v ∈ l → ∃ r, Event.abaOutput k'.epoch r v ∈ l

omit [Bincode] in
theorem AbaAct.output {k k' : Core} {l l' : List Event} (act : AbaAct got k l k' l') {v : UInt64} (found : k'.abaOutputVal = some v) :
    k.abaOutputVal = some v ∨ Event.abaOutput k.epoch k.abaRound v ∈ l' := by
  cases act with
  | outputCoin | outputProof =>
      obtain rfl := Option.some.inj found
      exact .inr (List.mem_append_right _ List.mem_cons_self)
  | _ => exact .inl found

theorem Concluded.act {s s' : Conf} (act : Act got s s') (h : Concluded s.core s.log) : Concluded s'.core s'.log := by
  have old {e : SeqNumber} {v : UInt64} (found : ∃ r, Event.abaOutput e r v ∈ s.log) : ∃ r, Event.abaOutput e r v ∈ s'.log :=
    found.imp fun _ mem => act.frame.mem mem
  refine ⟨fun v found => ?_, fun k' c v ended => ?_⟩
  · cases act.abaCase with
    | act act =>
        rw [act.frame.epoch]
        rcases act.output found with before | new
        · exact old (h.output v before)
        · exact ⟨_, new⟩
    | nextEpoch core =>
        rw [core] at found
        contradiction
    | other core =>
        rw [Core.agreement_eq Core.abaOutputVal (fun _ => rfl) core] at found
        rw [Core.agreement_eq Core.epoch (fun _ => rfl) core]
        exact old (h.output v found)
  · rcases act.fastReason ended trivial with before | reason
    · exact old (h.ended k' c v before)
    · cases reason with
      | epochEnd output => exact old (h.output v output)

theorem concludedInvariant (ok : Input → Prop) : Invariant ok fun _ => Concluded where
  act := fun _ act h => h.act act
  blind := fun _ _ h => ⟨h.output, h.ended⟩
  makePayload := by
    intro v k l transactions h
    refine ⟨fun v found => ?_, fun k' c v ended => ?_⟩
    · exact (h.output v found).imp fun _ mem => List.mem_append_left _ mem
    · exact (h.ended k' c v (by simpa using ended)).imp fun _ mem => List.mem_append_left _ mem
  storePayload := fun _ _ h => ⟨h.output, h.ended⟩

/-! ## Runs -/

namespace System
variable {sys : System} {trace : Trace} {key : PublicKey}

/-- No output at the end of an epoch is below a block that an honest node has committed by the 2-chain rule in it. -/
def FastPathKept (sys : System) (trace : Trace) : Prop :=
  ∀ key key', sys.Honest key → sys.Honest key' → ∀ k c b b0 b1, Event.twoChain k c b b0 b1 ∈ (sys.nodeAt trace key).log →
    ∀ k' c' val, Event.epochEnd k' c' val ∈ (sys.nodeAt trace key').log → k'.epoch = k.epoch → b0.height ≤ val

/-! ### What is asked of a run -/

/-- A 2-chain commit is on the leader's chain, for blocks of the leader and of the chain's epoch, with a certificate that
verifies. -/
def CurrentCommits (sys : System) (trace : Trace) : Prop :=
  ∀ key, sys.Honest key → ∀ k c b b0 b1, Event.twoChain k c b b0 b1 ∈ (sys.nodeAt trace key).log →
    c.name = k.leader ∧ b1.author = k.leader ∧ b1.epoch = c.epoch ∧ b.qc.verify sys.committee = .ok ()

/-- An honest node that votes for the block above a committed one does so on the chain of the author, in the epoch of the
block, and with a certificate in the chain that is at least that of the block. -/
def PromptVotes (sys : System) (trace : Trace) : Prop :=
  ∀ key, sys.Honest key → ∀ k c b b0 b1, Event.twoChain k c b b0 b1 ∈ (sys.nodeAt trace key).log →
    ∀ name, sys.Honest name → ∀ cast x, Event.voted cast x ∈ (sys.nodeAt trace name).log → x.digest = b1.digest →
      x.author = cast.name ∧ x.epoch = cast.epoch ∧ x.qc.height ≤ cast.highQc.height

/-- The hash tells the blocks below and above a certificate from others and from the genesis, and spells no key. -/
structure FastDigests (sys : System) (trace : Trace) (b b0 b1 : Block) : Prop where
  unkeyed : sys.Unkeyed b.qc
  voted : ∀ name, sys.Honest name → ∀ cast x, Event.voted cast x ∈ (sys.nodeAt trace name).log →
    x.digest ≠ QC.genesis.hash ∧ (x.digest = b1.digest → x.preimage = b1.preimage)
  genesis : b0.digest ≠ QC.genesis.hash

/-! ### The argument -/

theorem fastCommits (trace : Trace) (key : PublicKey)
    (payloads : ∀ payload, (key, .storePayload payload) ∈ trace → Bincode.blockOfPayload payload = none) :
    ∃ v, FastCommits (sys.ordered key) v (sys.nodeAt trace key).core (sys.nodeAt trace key).log := by
  have sound := sys.sound_of_inputs (fastCommitsInvariant (sys.ordered key) payloads)
    ⟨⟨Locked.new key (sys.parameters key) Map.empty, ?_, ?_, ?_⟩, ?_, ?_⟩
  · exact sound.2
  · intro name c found
    change (Core.new key (sys.ordered key) (sys.parameters key) Map.empty).pubkeyToChain.get? name = some c at found
    rw [Core.new_chains] at found
    split at found
    · rw [← Option.some.inj found]
      rfl
    · contradiction
  · exact fun cast b voted => absurd voted List.not_mem_nil
  · exact fun cast b t voted => absurd voted List.not_mem_nil
  · exact fun d value b stored => by simp [first, Core.new] at stored
  · exact fun k c b b0 b1 committed => absurd committed List.not_mem_nil

theorem output_of_end {k : Core} {c : Chain} {val : UInt64} (ended : Event.epochEnd k c val ∈ (sys.nodeAt trace key).log) :
    ∃ r, Event.abaOutput k.epoch r val ∈ (sys.nodeAt trace key).log := by
  have sound := sys.sound_of_inputs (concludedInvariant fun input => (key, input) ∈ trace)
    ⟨fun v found => by simp [first, Core.new] at found, fun k' c v ended => absurd ended List.not_mem_nil⟩
  obtain ⟨_, holds⟩ := sound.2
  exact holds.ended k c val ended

/-- Who has voted for the block above a committed one and times out in the epoch of the commit states at least the height of
the committed block. -/
theorem stated_height_ge {k : Core} {c : Chain} {b b0 b1 : Block}
    (fast : FastCommit (sys.ordered key) (sys.nodeAt trace key).log k c b b0 b1) (digests : sys.FastDigests trace b b0 b1)
    (chain : c.name = k.leader) (author : b1.author = k.leader) (epoch : b1.epoch = c.epoch)
    {name : PublicKey} (honest : sys.Honest name) {v : View}
    (forthright : Forthright (sys.ordered name) v (sys.nodeAt trace name).core (sys.nodeAt trace name).log)
    {cast : Chain} {x : Block} (voted : Event.voted cast x ∈ (sys.nodeAt trace name).log) (same : x.digest = b1.digest)
    (prompt : x.author = cast.name ∧ x.epoch = cast.epoch ∧ x.qc.height ≤ cast.highQc.height)
    {t : Timeout} (signed : Event.signed (.timeout t) ∈ (sys.nodeAt trace name).log) (current : t.epoch = k.epoch) :
    b0.height ≤ t.highQc.height := by
  obtain ⟨named, epochs, known⟩ := prompt
  obtain ⟨author', height, epoch', parent⟩ := Block.parts_of_preimage ((digests.voted name honest cast x voted).2 same)
  rcases ((ballots trace name).voted cast x voted).2 with next | genesis
  · have leader : (sys.ordered name).getLeader = (sys.ordered key).getLeader := by
      rw [Committee.getLeader_perm (sys.perm name), Committee.getLeader_perm (sys.perm key)]
    have owner : cast.name = k.leader := by rw [← named, author', author]
    have stated : cast.highQc.height ≤ t.highQc.height := by
      apply forthright.stated cast x t voted named signed
      · rw [leader, current, ← fast.elected, owner]
      · rw [← epochs, epoch', epoch, fast.epoch, chain, leader, owner, current]
    have step : x.qc.height = b0.height := by
      have above : 0 < x.height := by
        rw [height, UInt64.lt_iff_toNat_lt, ← fast.next]
        exact Nat.succ_pos _
      have number := toNat_of_succ next above
      rw [height, ← fast.next] at number
      exact UInt64.toNat_inj.mp (Nat.succ_injective number)
    rw [← step]
    exact UInt64.le_trans known stated
  · have zero : b1.parent = QC.genesis.hash := by
      rw [← parent]
      exact (QC.eq_genesis genesis).1
    rcases fast.grandparent with ⟨-, rfl⟩ | stored
    · exact UInt64.zero_le
    · exact absurd (stored.trans zero) digests.genesis

theorem CurrentCommits.kept (commits : sys.CurrentCommits trace) (resilient : sys.Resilient) (valid : sys.Valid trace)
    (unforged : sys.Unforged trace) (votes : sys.PromptVotes trace)
    (accepted : ∀ key, sys.Honest key → CoinAccepted (sys.nodeAt trace key).log)
    (digests : ∀ key, sys.Honest key → ∀ k c b b0 b1, Event.twoChain k c b b0 b1 ∈ (sys.nodeAt trace key).log →
      sys.FastDigests trace b b0 b1)
    (payloads : ∀ key payload, (key, .storePayload payload) ∈ trace → Bincode.blockOfPayload payload = none) :
    sys.FastPathKept trace := by
  intro key key' honest honest' k c b b0 b1 committed k' c' val ended same
  obtain ⟨chain, author, epoch, verified⟩ := commits key honest k c b b0 b1 committed
  have hash := digests key honest k c b b0 b1 committed
  obtain ⟨_, fastCommits⟩ := @fastCommits _ _ sys trace key (payloads key)
  have fast := fastCommits.commits k c b b0 b1 committed
  have voted : sys.Voted trace b.qc :=
    ⟨verified, processed_authentic valid unforged honest fast.processed verified, hash.unkeyed⟩
  -- The output is the largest height of a certificate that an honest node has saved.
  obtain ⟨r, output⟩ := output_of_end ended
  obtain ⟨a, good, taken⟩ := output_input resilient.tolerant valid honest' output
  obtain ⟨a, good, taken⟩ := input_first resilient valid accepted r.toNat r a rfl good taken
  obtain ⟨certificate, saved, about, highest⟩ := input_of_certificate taken
  obtain ⟨passed, authentic⟩ := saved_certificate valid saved
  -- One honest node has voted for the upper block and stands in the certificate.
  obtain ⟨name, voter, entry, trusted⟩ := resilient.common (voted.accepted key) (.tc certificate passed)
  obtain ⟨cast, x, granted, -, isFor⟩ := voted.cast trusted voter
  obtain ⟨⟨_, signature, height⟩, mem, rfl⟩ := List.mem_map.mp (List.mem_toFinset.mp entry)
  obtain ⟨t, signed, current, stated⟩ := signed_of_entry authentic passed trusted mem
  have digest : x.digest = b1.digest := by
    rcases fast.parent with ⟨genesis, -⟩ | stored
    · exact absurd (isFor.hash.symm.trans genesis) (hash.voted _ trusted cast x granted).1
    · exact isFor.hash.symm.trans stored.symm
  obtain ⟨_, own⟩ := @System.fastCommits _ _ sys trace _ (payloads _)
  have low := stated_height_ge fast hash chain author epoch trusted own.forthright granted digest
    (votes key honest k c b b0 b1 committed _ trusted cast x granted digest) signed (by rw [current, about, same])
  rw [stated] at low
  exact UInt64.le_trans low ((List.max?_le_iff highest).mp (UInt64.le_refl val) _ (List.mem_map.mpr ⟨_, mem, rfl⟩))

/-- The outputs keep to the fast path in a run in which 2-chain commits are for blocks of the epoch, the votes for the block
above are cast in this epoch with the certificate below in the chain, and the bit of the coin is taken up by nodes only that
have accepted it. -/
theorem fast_path_kept (sys : System) (resilient : sys.Resilient) (trace : Trace) (valid : sys.Valid trace)
    (unforged : sys.Unforged trace) (commits : sys.CurrentCommits trace) (votes : sys.PromptVotes trace)
    (accepted : ∀ key, sys.Honest key → CoinAccepted (sys.nodeAt trace key).log)
    (digests : ∀ key, sys.Honest key → ∀ k c b b0 b1, Event.twoChain k c b b0 b1 ∈ (sys.nodeAt trace key).log →
      sys.FastDigests trace b b0 b1)
    (payloads : ∀ key payload, (key, .storePayload payload) ∈ trace → Bincode.blockOfPayload payload = none) :
    sys.FastPathKept trace :=
  commits.kept resilient valid unforged votes accepted digests payloads

end System
end

/-! ## An output of nobody -/

namespace Sample

/-- The second and the third node vote for two blocks of the leader, and the second commits the lower. -/
def committing : Trace :=
  [(key 2, propose (above (above (firstBlock 1)))), (key 3, propose (above (firstBlock 1))),
    (key 2, propose (above (firstBlock 1))), (key 3, propose (firstBlock 1)), (key 2, propose (firstBlock 1))]

/-- A block of the leader far up, on the genesis. -/
def detached : Block := Block.new QC.genesis (key 1) 20 0 [] []

/-- A timeout for the next epoch puts the certificate of that block on the chain of the second node. -/
def outrun : Input := .deliver .smvba (.timeout (.new (certify detached [1, 2, 3]) 1 (key 1))) env

def statedEntry (n : Nat) (height : SeqNumber) : PublicKey × Signature × SeqNumber :=
  (key n, (Timeout.new { QC.genesis with height := height } 0 (key n)).signature, height)

/-- The nodes state the heights that they know, and the leader states the given one. -/
def stated (height : SeqNumber) : Input :=
  .deliver .smvba (.tc ⟨0, [statedEntry 1 height, statedEntry 2 2, statedEntry 3 1]⟩) env

/-- After the commit the two nodes time out, and enter the agreement with the given inputs. -/
def timedOut (x y : UInt64) : Trace :=
  [(key 3, stated y), (key 2, stated x), (key 3, outrun), (key 2, outrun), (key 3, propose detached),
    (key 2, propose detached)] ++ committing

/-- The nodes put in 3 and 5, find the coin even, and go on with 0. -/
def abandoned : Trace :=
  [(key 2, aux 1 2 0), (key 2, share 1 2), (key 2, aux 3 2 0), (key 3, aux 1 2 0), (key 2, aux 1 2 0), (key 3, val 1 2 0),
    (key 3, val 2 2 0), (key 2, val 1 2 0), (key 2, val 3 2 0), (key 3, share 1 1), (key 2, share 1 1),
    (key 3, aux 1 1 3), (key 3, aux 2 1 3), (key 2, aux 1 1 3), (key 2, aux 3 1 3), (key 3, val 2 1 5),
    (key 3, val 1 1 5), (key 2, val 1 1 5), (key 2, val 3 1 5), (key 2, val 3 1 3), (key 2, val 1 1 3),
    (key 3, val 1 1 3), (key 3, val 2 1 3)] ++ timedOut 3 5

/-- The 2-chain commits, with the core and the chain they were made in. -/
def twoChains (l : List Event) : List (Core × Chain × Block × Block × Block) :=
  l.filterMap fun
    | .twoChain core chain b b0 b1 => some (core, chain, b, b0, b1)
    | _ => none

theorem mem_twoChains {l : List Event} {core : Core} {chain : Chain} {b b0 b1 : Block} :
    (core, chain, b, b0, b1) ∈ twoChains l ↔ Event.twoChain core chain b b0 b1 ∈ l := by
  constructor
  · intro h
    obtain ⟨e, mem, found⟩ := List.mem_filterMap.mp h
    split at found
    · simp only [Option.some.injEq, Prod.mk.injEq] at found
      obtain ⟨rfl, rfl, rfl, rfl, rfl⟩ := found
      exact mem
    · contradiction
  · exact fun h => List.mem_filterMap.mpr ⟨_, h, rfl⟩

theorem ended_of_mem {l : List Event} {core : Core} {chain : Chain} {output : UInt64} (h : (core, chain, output) ∈ epochEnds l) :
    Event.epochEnd core chain output ∈ l := by
  obtain ⟨e, mem, found⟩ := List.mem_filterMap.mp h
  split at found
  · simp only [Option.some.injEq, Prod.mk.injEq] at found
    obtain ⟨rfl, rfl, rfl⟩ := found
    exact mem
  · contradiction

theorem abandoned_block : leaderless.Resilient ∧ leaderless.Valid abandoned ∧ ¬ leaderless.FastPathKept abandoned := by
  refine ⟨⟨by decide, by decide⟩, by decide +kernel, fun kept => ?_⟩
  have low : ∃ x ∈ twoChains (leaderless.nodeAt abandoned (key 2)).log, ∃ y ∈ epochEnds (leaderless.nodeAt abandoned (key 2)).log,
      y.1.epoch = x.1.epoch ∧ ¬ x.2.2.2.1.height ≤ y.2.2 := by
    decide +kernel
  obtain ⟨⟨k, c, b, b0, b1⟩, committed, ⟨k', c', val⟩, ended, epoch, below⟩ := low
  exact below (kept (key 2) (key 2) (by decide) (by decide) k c b b0 b1 (mem_twoChains.mp committed) k' c' val
    (ended_of_mem ended) epoch)

/-- The nodes put in 2, and the second of them ends the epoch with it. -/
def preserved : Trace :=
  [(key 2, aux 1 1 2), (key 2, share 1 1), (key 2, aux 3 1 2), (key 3, aux 1 1 2), (key 2, aux 1 1 2), (key 3, val 1 1 2),
    (key 3, val 2 1 2), (key 2, val 1 1 2), (key 2, val 3 1 2)] ++ timedOut 2 2

/-- The votes, with the chain they were granted on. -/
def votesOn (l : List Event) : List (Chain × Block) :=
  l.filterMap fun
    | .voted c b => some (c, b)
    | _ => none

theorem mem_votesOn {l : List Event} {c : Chain} {b : Block} (h : Event.voted c b ∈ l) : (c, b) ∈ votesOn l :=
  List.mem_filterMap.mpr ⟨_, h, rfl⟩

theorem preserved_block : leaderless.FastPathKept preserved ∧
    (epochEnds (leaderless.nodeAt preserved (key 2)).log).map (fun x => x.2.2) = [2] := by
  have none : ∀ name ∈ four.keys, assembledChains (leaderless.nodeAt preserved name).log = [] := by decide +kernel
  have current : ∀ name ∈ four.keys, ∀ x ∈ twoChains (leaderless.nodeAt preserved name).log,
      x.2.1.name = x.1.leader ∧ x.2.2.2.2.author = x.1.leader ∧ x.2.2.2.2.epoch = x.2.1.epoch ∧
        x.2.2.1.qc.verify four = .ok () := by
    decide +kernel
  have prompt : ∀ voter ∈ four.keys, ∀ y ∈ votesOn (leaderless.nodeAt preserved voter).log,
      y.2.author = y.1.name ∧ y.2.epoch = y.1.epoch ∧ y.2.qc.height ≤ y.1.highQc.height := by
    decide +kernel
  have accepted : ∀ name ∈ four.keys, ∀ call ∈ coinCalls (leaderless.nodeAt preserved name).log, AcceptedBit call.1 call.2 := by
    decide +kernel
  have digests : ∀ name ∈ four.keys, ∀ x ∈ twoChains (leaderless.nodeAt preserved name).log,
      (∀ name ∈ four.keys, x.2.2.1.qc.hash.bytes ≠ name.bytes) ∧ x.2.2.2.1.digest ≠ QC.genesis.hash ∧
      ∀ voter ∈ four.keys, ∀ b ∈ votedBlocks (leaderless.nodeAt preserved voter).log,
        b.digest ≠ QC.genesis.hash ∧ (b.digest = x.2.2.2.2.digest → b.preimage = x.2.2.2.2.preimage) := by
    decide +kernel
  refine ⟨?_, by decide +kernel⟩
  refine System.fast_path_kept leaderless ⟨by decide, by decide⟩ preserved (by decide +kernel) (unforged_of none) ?_ ?_ ?_ ?_
    fun _ _ _ => rfl
  · intro name honest k c b b0 b1 committed
    have mem := mem_twoChains.mpr committed
    exact current name honest.1 (k, c, b, b0, b1) mem
  · intro name honest k c b b0 b1 committed voter trusted cast x voted _
    exact prompt voter trusted.1 (cast, x) (mem_votesOn voted)
  · intro name honest core coin called
    exact accepted name honest.1 _ (mem_coinCalls called)
  · intro name honest k c b b0 b1 committed
    obtain ⟨unkeyed, genesis, voted⟩ := digests name honest.1 _ (mem_twoChains.mpr committed)
    exact ⟨fun other trusted => unkeyed other trusted.1,
      fun voter trusted cast x granted => voted voter trusted.1 x (mem_votedBlocks granted), genesis⟩

end Sample
end HotstuffDag
