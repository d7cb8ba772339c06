import HotstuffDag.Proof.AbaAgreement
import HotstuffDag.Proof.CommitFront
import HotstuffDag.Proof.FastPath

/-! # The total order of commits

The nodes replay the same rules: the chain of an epoch's leader is what the certificates say it is, and the epoch ends
with the output of the agreement. So of two nodes one has sent what the other has, and perhaps more. -/

namespace HotstuffDag
open Library Library.Exec Library.Replay Library.Schedule

section
variable [Crypto] [Bincode]
variable {got : ConsensusMessage → Prop}

/-! ## What acts do to the order -/

inductive OrderCase (s s' : Conf) : Prop
  | commit {fuel : Nat} {env : Env} {b : Block} (why : CommitReason s.core s.chain s.log b)
      (done : s' = (final (Core.commit fuel b) ⟨s.core, s.chain, s.log, env⟩).conf)
  | ended {val : UInt64} (leader : s.chain.name = s.core.leader) (output : s.core.abaOutputVal = some val)
      (log : s'.log = s.log ++ [.epochEnd s.core s.chain val]) (epoch : s'.core.epoch = s.core.epoch + 1)
      (chains : s'.core.pubkeyToChain = s.core.pubkeyToChain) (count : s'.chain.lastCommittedHeight.toNat = val.toNat + 9)
  | still (epoch : s'.core.epoch = s.core.epoch) (sent : committed s'.log = committed s.log)
      (chains : s'.core.pubkeyToChain = s.core.pubkeyToChain) (count : s'.chain.lastCommittedHeight = s.chain.lastCommittedHeight)
      (ends : ∀ k c val, Event.epochEnd k c val ∈ s'.log → Event.epochEnd k c val ∈ s.log)

theorem Act.orderCase {s s' : Conf} (act : Act got s s') : OrderCase s s' := by
  cases act with
  | commit why => exact .commit why rfl
  | nextEpoch _ leader output _ _ _ _ small => exact .ended leader output rfl rfl rfl (Chain.toNat_restart small).2
  | aba act =>
      refine .still act.frame.epoch act.committed act.frame.pubkeyToChain rfl fun k c val ended => ?_
      exact (act.events ended).resolve_right id
  | certify =>
      refine .still rfl rfl rfl ?_ fun _ _ _ => id
      unfold Chain.certify Chain.update Chain.advance
      split <;> rfl
  | countVote =>
      unfold Core.assembledEvents
      split <;> exact .still rfl (by simp [committed]) rfl rfl (by simp)
  | countTimeout =>
      unfold Core.savedTcs
      refine .still ?_ ?_ rfl rfl ?_
      · unfold Core.keepAssembledTc
        rfl
      · split <;> simp [committed]
      · split <;> simp
  | _ => exact .still rfl (by simp [committed]) rfl rfl (by simp)

omit [Crypto] in
theorem Core.commit_begins (fuel : Nat) (block : Block) (s : State) :
    s.log ++ [.commitCall s.core s.chain block] <+: (final (Core.commit fuel block) s).log := by
  have follow : Leads CommitFrame (Core.commitPrevBlock fuel block [] >>= fun walked => Core.deliver walked.2.reverse)
      { s with log := s.log ++ [.commitCall s.core s.chain block] } (fun _ _ => True) :=
    Leads.bind (Core.leads_commitPrevBlock fuel block [] _) fun _ _ _ _ => Core.leads_deliver _ _
  exact follow.final.frame.log

/-! ## Blocks that are read -/

/-- What is stored reads as processed blocks of that digest. -/
def StoresProcessed (k : Core) (l : List Event) : Prop :=
  ∀ d value b, k.store.get? d = some value → Synchronizer.decodeBlock value = .ok b → Event.process b ∈ l ∧ b.digest = d

namespace StoresProcessed
variable {k : Core} {l : List Event}

theorem fetched (h : StoresProcessed k l) {d : Digest} {b : Block} (fetched : Fetched k.store d b) :
    d = QC.genesis.hash ∧ b = Block.genesis ∨ Event.process b ∈ l ∧ b.digest = d :=
  fetched.imp_right fun ⟨value, stored, decodes⟩ => h d value b stored decodes

theorem act {s s' : Conf} (h : StoresProcessed s.core s.log) (act : Act got s s') : StoresProcessed s'.core s'.log := by
  intro d value b stored decodes
  rcases act.store with same | ⟨b', -, processed, held⟩
  · rw [same] at stored
    exact (h d value b stored decodes).imp_left act.frame.mem
  · rw [held] at stored
    rcases stored_insert stored decodes with ⟨digest, rfl⟩ | old
    · exact ⟨processed, digest⟩
    · exact (h d value b old decodes).imp_left act.frame.mem

theorem storePayload (h : StoresProcessed k l) {payload : Payload} (read : Bincode.blockOfPayload payload = none) :
    StoresProcessed { k with store := k.store.insert payload.digest (.payload payload) } l := by
  intro d value b stored decodes
  rcases stored_insert_payload stored decodes with found | old
  · rw [read] at found
    contradiction
  · exact h d value b old decodes

end StoresProcessed

/-! ## The front of a node -/

/-- The heights that have been sent or skipped. -/
def Event.settles : Event → List (PublicKey × ℕ)
  | .commit b => [b.point]
  | .epochEnd _ c val => [(c.name, val.toNat + 9)]
  | _ => []

def Settled (before : List Event) (p : PublicKey × ℕ) : Prop := p.2 = 0 ∨ p ∈ before.flatMap Event.settles

/-- A commit is made on the chain of the leader, and an epoch ends when it has got to the output; nothing has been counted
then that was not sent or skipped. -/
def InTurn (before : List Event) : Event → Prop
  | .commitCall k c _ => c.name = k.leader ∧ ∀ name, Settled before (name, heights k c name)
  | .epochEnd _ c val => val ≤ c.lastCommittedHeight ∧ Settled before (c.name, c.lastCommittedHeight.toNat)
  | _ => True

def Orderly (l : List Event) : Prop := ∀ before e, before ++ [e] <+: l → InTurn before e

/-- Nothing has been served. -/
def Front.first : Front PublicKey SeqNumber := ⟨0, fun _ => 0, []⟩

/-- The node has replayed the rules up to the front; `led` has the blocks that it has committed, each with the leader of the
epoch in which it was. -/
structure Replayed (R : Rules PublicKey SeqNumber Digest) (f : Front PublicKey SeqNumber) (led : List (PublicKey × Block)) (v : View)
    (k : Core) (l : List Event) : Prop where
  run : R.Run Front.first f
  epoch : f.epoch = k.epoch
  blocks : led.map Prod.snd = committed l
  sent : f.sent = led.map fun x => (x.1, x.2.point)
  count : ∀ name, f.count name ≤ (counts v name).getD 0
  ended : ∀ k' c val, Event.epochEnd k' c val ∈ l → val.toNat + 9 ≤ f.count c.name

namespace Replayed
variable {R : Rules PublicKey SeqNumber Digest} {f : Front PublicKey SeqNumber} {led : List (PublicKey × Block)} {v : View}
  {k : Core} {l : List Event} {s s' : Conf}

omit [Crypto] [Bincode] in
theorem settled (h : Replayed R f led v k l) {p : PublicKey × ℕ} (settled : Settled l p) : p.2 ≤ f.count p.1 := by
  rcases settled with zero | settled
  · rw [zero]
    exact Nat.zero_le _
  obtain ⟨e, mem, settles⟩ := List.mem_flatMap.mp settled
  cases e with
  | commit b =>
      have mem := mem_committed.mpr mem
      rw [← h.blocks] at mem
      obtain ⟨x, there, rfl⟩ := List.mem_map.mp mem
      rw [List.mem_singleton.mp settles]
      apply h.run.counted (fun p mem => absurd mem List.not_mem_nil) (x.1, x.2.point)
      rw [h.sent]
      exact List.mem_map_of_mem there
  | epochEnd k' c val =>
      rw [List.mem_singleton.mp settles]
      exact h.ended k' c val mem
  | _ => exact absurd settles List.not_mem_nil

omit [Bincode] [Crypto] in
/-- Where nothing is sent and no epoch ends, the replay stays where it is. -/
theorem still (h : Replayed R f led v k l) {v' : View} {k' : Core} {l' : List Event} (epoch : k'.epoch = k.epoch)
    (sent : committed l' = committed l) (count : ∀ name, (counts v name).getD 0 ≤ (counts v' name).getD 0)
    (ends : ∀ k c val, Event.epochEnd k c val ∈ l' → Event.epochEnd k c val ∈ l) : Replayed R f led v' k' l' where
  run := h.run
  epoch := h.epoch.trans epoch.symm
  blocks := h.blocks.trans sent.symm
  sent := h.sent
  count name := (h.count name).trans (count name)
  ended k c val mem := h.ended k c val (ends k c val mem)

omit [Crypto] in
/-- A commit from settled heights goes on with the replay. -/
theorem commit (h : Replayed R f led (view s.core s.chain) s.core s.log) (names : Names s.core) (fuel : Nat) (env : Env) (b : Block)
    (turn : InTurn s.log (.commitCall s.core s.chain b)) (safe : SafeCommit s.core s.chain b)
    (guides : Guides R s.core.epoch s.core s.chain b)
    (done : s' = (final (Core.commit fuel b) ⟨s.core, s.chain, s.log, env⟩).conf) :
    ∃ (f' : Front PublicKey SeqNumber) (blocks : List Block),
      Replayed R f' (led ++ blocks.map fun b => (s.core.leader, b)) (view s'.core s'.chain) s'.core s'.log ∧
      ∀ b ∈ blocks, Presented s.core s.chain b := by
  subst done
  obtain ⟨leader, settled⟩ := turn
  have count : f.count = heights s.core s.chain := by
    funext name
    exact Nat.le_antisymm (h.count name) (h.settled (settled name))
  have elected : R.leader f.epoch = s.core.leader := by rw [h.epoch, guides.leader, leader]
  rw [← h.epoch] at guides
  obtain ⟨f', run, epoch, counted, blocks, sent, served⟩ :=
    Core.commit_front fuel b ⟨s.core, s.chain, s.log, env⟩ names leader safe guides count
  obtain ⟨blocks', sent', presented⟩ := Core.commit_sent fuel b ⟨s.core, s.chain, s.log, env⟩
  obtain rfl := List.append_cancel_left (sent.symm.trans sent')
  have frame := Core.commit_frame fuel b ⟨s.core, s.chain, s.log, env⟩
  refine ⟨f', blocks, ⟨h.run.trans run, ?_, ?_, ?_, counted, fun k c val ended => ?_⟩, presented⟩
  · rw [epoch, h.epoch]
    exact (frame.core_eq Core.epoch fun _ _ => rfl).symm
  · show _ = committed (final (Core.commit fuel b) ⟨s.core, s.chain, s.log, env⟩).log
    rw [sent, List.map_append, h.blocks, List.map_map]
    congr 1
    exact (List.map_id blocks)
  · rw [served, h.sent, elected, List.map_append, List.map_map]
    rfl
  · exact (h.ended k c val ((frame.events ended).resolve_right id)).trans (Rules.Run.count_le run _)

omit [Bincode] [Crypto] in
/-- The end of an epoch, on a settled chain that has got to the output. -/
theorem finish (h : Replayed R f led (view s.core s.chain) s.core s.log) {val : UInt64}
    (turn : InTurn s.log (.epochEnd s.core s.chain val)) (skip : R.skip = 9) (next : R.next s.core.epoch = s.core.epoch + 1)
    (owner : R.leader s.core.epoch = s.chain.name) (ends : R.ends s.core.epoch val.toNat)
    (low : s.chain.lastCommittedHeight.toNat ≤ val.toNat + 9) (name : s'.chain.name = s.chain.name)
    (log : s'.log = s.log ++ [.epochEnd s.core s.chain val]) (epoch : s'.core.epoch = s.core.epoch + 1)
    (chains : s'.core.pubkeyToChain = s.core.pubkeyToChain) (count : s'.chain.lastCommittedHeight.toNat = val.toNat + 9) :
    ∃ f', Replayed R f' led (view s'.core s'.chain) s'.core s'.log := by
  obtain ⟨reached, settled⟩ := turn
  rw [← h.epoch] at owner ends next
  have own : f.count s.chain.name = s.chain.lastCommittedHeight.toNat := by
    have least := h.count s.chain.name
    rw [counts_self] at least
    exact Nat.le_antisymm least (h.settled settled)
  have step : R.Step f (R.finish f val.toNat) := by
    apply Rules.Step.finish ends
    · rw [owner, own]
      exact UInt64.le_iff_toNat_le.mp reached
    · rw [owner, own, skip]
      exact low
  have grown : ∀ o, heights s.core s.chain o ≤ heights s'.core s'.chain o := by
    apply heights_mono
    apply counts_mono chains name
    rw [count]
    exact low
  refine ⟨_, h.run.tail step, ?_, ?_, h.sent, fun o => ?_, fun k c val' mem => ?_⟩
  · rw [epoch, ← h.epoch, ← next]
    rfl
  · rw [log, committed_append, h.blocks]
    simp [committed]
  · show Function.update f.count _ _ o ≤ _
    rw [owner, skip]
    by_cases same : o = s.chain.name
    · subst same
      rw [Function.update_self, ← name, counts_self, count]
      exact Nat.le_refl (val.toNat + 9)
    · rw [Function.update_of_ne same]
      exact (h.count o).trans (grown o)
  · rw [log] at mem
    rcases List.mem_append.mp mem with old | new
    · exact (h.ended k c val' old).trans (step.count_le _)
    · obtain ⟨rfl, rfl, rfl⟩ := Event.epochEnd.inj (List.mem_singleton.mp new)
      show _ ≤ Function.update f.count _ _ s.chain.name
      rw [owner, skip, Function.update_self]

end Replayed

omit [Crypto] [Bincode] in
theorem Block.preimage_sorted {b b' : Block} (same : b.preimage = b'.preimage) (references : b.references = b'.references) :
    ({ b with references := Core.sortReferences b.references } : Block).preimage =
      ({ b' with references := Core.sortReferences b'.references } : Block).preimage := by
  obtain ⟨author, height, epoch, parent⟩ := Block.parts_of_preimage same
  have parent : b.qc.hash = b'.qc.hash := parent
  simp only [Block.preimage, author, height, epoch, parent, references, List.append_cancel_left_eq,
    List.append_cancel_right_eq] at same ⊢
  exact same

/-! ## The rules of a run -/

namespace System
variable {sys : System} {trace : Trace} {key : PublicKey}

/-- The blocks that two honest nodes have sent on the commit channel are one list a beginning of the other. -/
def TotalOrder (sys : System) (trace : Trace) : Prop :=
  ∀ p q, sys.Honest p → sys.Honest q →
    (committed (sys.nodeAt trace p).log).map Block.digest <+: (committed (sys.nodeAt trace q).log).map Block.digest ∨
      (committed (sys.nodeAt trace q).log).map Block.digest <+: (committed (sys.nodeAt trace p).log).map Block.digest

/-- An honest node has processed the block. -/
def Processed (sys : System) (trace : Trace) (b : Block) : Prop :=
  ∃ key, sys.Honest key ∧ Event.process b ∈ (sys.nodeAt trace key).log

/-- The hash tells the processed blocks from each other and from the genesis. -/
structure Distinguished (sys : System) (trace : Trace) : Prop where
  blocks : ∀ b b', sys.Processed trace b → sys.Processed trace b' → b.digest = b'.digest →
    b.preimage = b'.preimage ∧ b.references = b'.references
  genesis : ∀ b, sys.Processed trace b → b.digest ≠ QC.genesis.hash

/-- The block that a digest stands for. -/
def StandsFor (sys : System) (trace : Trace) (d : Digest) (b : Block) : Prop :=
  d = QC.genesis.hash ∧ b = Block.genesis ∨ sys.Processed trace b ∧ b.digest = d

/-- The heights of a leader refer to what their certified block refers to, and an epoch ends where an honest node ends it. -/
def rules (sys : System) (trace : Trace) : Rules PublicKey SeqNumber Digest where
  leader := sys.committee.getLeader
  next := fun e => e + 1
  skip := 9
  refers := fun o h refs => ∃ qc b, sys.Voted trace qc ∧ qc.proposer = o ∧ qc.height.toNat = h ∧ qc.hash = b.digest ∧
    sys.Processed trace b ∧ (Core.sortReferences b.references).map Prod.snd = refs
  names := fun d p => ∃ b, sys.StandsFor trace d b ∧ b.point = p
  ends := fun e n => ∃ key k c val, sys.Honest key ∧ Event.epochEnd k c val ∈ (sys.nodeAt trace key).log ∧ k.epoch = e ∧
    val.toNat = n

theorem StandsFor.point_eq (distinguished : sys.Distinguished trace) {d : Digest} {b b' : Block} (h : sys.StandsFor trace d b)
    (h' : sys.StandsFor trace d b') : b.point = b'.point := by
  rcases h with ⟨zero, rfl⟩ | ⟨processed, digest⟩
  · rcases h' with ⟨-, rfl⟩ | ⟨processed', digest'⟩
    · rfl
    · exact absurd (digest'.trans zero) (distinguished.genesis _ processed')
  · rcases h' with ⟨zero, -⟩ | ⟨processed', digest'⟩
    · exact absurd (digest.trans zero) (distinguished.genesis _ processed)
    · obtain ⟨same, -⟩ := distinguished.blocks _ _ processed processed' (digest.trans digest'.symm)
      obtain ⟨author, height, -, -⟩ := Block.parts_of_preimage same
      unfold Block.point
      rw [author, height]

theorem rules_functional (resilient : sys.Resilient) (valid : sys.Valid trace)
    (own : ∀ name, sys.Honest name → OwnAssembled name (sys.nodeAt trace name).log) (distinguished : sys.Distinguished trace)
    (agree : sys.OutputsAgree trace) : (sys.rules trace).Functional where
  refers := by
    rintro o h refs refs' ⟨qc, b, voted, rfl, rfl, hash, processed, rfl⟩ ⟨qc', b', voted', proposer, height, hash', processed', rfl⟩
    have certified := Voted.hash_eq resilient valid own voted' voted proposer (UInt64.toNat_inj.mp height)
    have digest : b.digest = b'.digest := by rw [← hash, ← certified, hash']
    rw [(distinguished.blocks b b' processed processed' digest).2]
  names := by
    rintro d p p' ⟨b, stands, rfl⟩ ⟨b', stands', rfl⟩
    exact stands.point_eq distinguished stands'
  ends := by
    rintro e n n' ⟨p, k, c, val, honest, ended, rfl, rfl⟩ ⟨q, k', c', val', honest', ended', same, rfl⟩
    obtain ⟨r, output⟩ := output_of_end ended
    obtain ⟨r', output'⟩ := output_of_end ended'
    rw [same] at output'
    rw [agree p q honest honest' _ _ _ _ _ output output']

/-- What a chain has above the genesis is certified by the votes of a quorum. -/
theorem certified_entry (resilient : sys.Resilient) (distinguished : sys.Distinguished trace) (honest : sys.Honest key)
    {k : Core} {c : Chain} {l : List Event} {committee : Committee} {name : PublicKey}
    (certs : c.Certs (fun _ qc => qc.eq QC.genesis = true ∨ sys.Voted trace qc) committee name) (stored : StoresProcessed k l)
    (le : l <+: (sys.nodeAt trace key).log) {h : SeqNumber} {d : Digest} {b : Block} (entry : c.heightToDigest.get? h = some d)
    (fetched : Fetched k.store d b) :
    b = Block.genesis ∧ h = 0 ∨ ∃ qc, sys.Voted trace qc ∧ qc.height = h ∧ qc.IsFor b ∧ sys.Processed trace b := by
  have read : sys.StandsFor trace d b := by
    rcases stored.fetched fetched with genesis | ⟨processed, digest⟩
    · exact .inl genesis
    · exact .inr ⟨⟨key, honest, le.subset processed⟩, digest⟩
  obtain ⟨qc, genesis | voted, rfl, rfl⟩ := certs.entries h d entry
  · obtain ⟨hash, height⟩ := QC.eq_genesis genesis
    rcases read with ⟨-, rfl⟩ | ⟨processed, digest⟩
    · exact .inl ⟨rfl, height⟩
    · exact absurd (digest.trans hash) (distinguished.genesis b processed)
  · obtain ⟨name, trusted, voter, -⟩ := Voted.common resilient voted voted
    obtain ⟨cast, x, granted, -, about⟩ := voted.cast trusted voter
    have seen : sys.Processed trace x := ⟨name, trusted, ((ballots trace name).voted cast x granted).1⟩
    rcases read with ⟨zero, -⟩ | ⟨processed, digest⟩
    · exact absurd (about.hash.symm.trans zero) (distinguished.genesis x seen)
    · have same := (distinguished.blocks b x processed seen (digest.trans about.hash)).1
      exact .inr ⟨qc, voted, rfl, about.of_preimage same, processed⟩

/-- A commit follows the rules. -/
theorem guides (resilient : sys.Resilient) (distinguished : sys.Distinguished trace) (agree : sys.OutputsAgree trace)
    (kept : sys.FastPathKept trace) (honest : sys.Honest key) {k : Core} {c : Chain} {l : List Event} {block : Block}
    (identity : k.committee = sys.ordered key)
    (certs : c.Certs (fun _ qc => qc.eq QC.genesis = true ∨ sys.Voted trace qc) (sys.ordered key) c.name)
    (stored : StoresProcessed k l) (concluded : Concluded k l) (le : l <+: (sys.nodeAt trace key).log)
    (leader : c.name = k.leader) (safe : SafeCommit k c block) (why : CommitReason k c l block) :
    Guides (sys.rules trace) k.epoch k c block where
  leader := by
    rw [leader, Core.leader, identity, Committee.getLeader_perm (sys.perm key)]
    rfl
  refers := by
    intro h ahead d current entry fetched
    have read := Synchronizer.fetched fetched
    rcases certified_entry resilient distinguished honest certs stored le entry read with ⟨-, zero⟩ | ⟨qc, voted, height, about, processed⟩
    · rw [zero] at ahead
      exact absurd ahead.1 (UInt64.not_lt.mpr UInt64.zero_le)
    · refine ⟨qc, current, voted, ?_, congrArg UInt64.toNat height, about.hash, processed, rfl⟩
      rw [about.proposer]
      exact (safe.owned h ahead d current entry read).1
  names := by
    intro d b fetched
    refine ⟨b, ?_, rfl⟩
    rcases stored.fetched (Synchronizer.fetched fetched) with genesis | ⟨processed, digest⟩
    · exact .inl genesis
    · exact .inr ⟨⟨key, honest, le.subset processed⟩, digest⟩
  within := by
    rintro output ⟨other, k', c', val, honest', ended, same, rfl⟩
    cases why with
    | twoChain event => exact UInt64.le_iff_toNat_le.mp (kept key other honest honest' _ _ _ _ _ (le.subset event) _ _ _ ended same)
    | @output val' digest _ decided entry fetched =>
        obtain ⟨r, mine⟩ := concluded.output val' decided
        obtain ⟨r', theirs⟩ := output_of_end ended
        rw [same] at theirs
        obtain rfl := agree key other honest honest' _ _ _ _ _ (le.subset mine) theirs
        rcases certified_entry resilient distinguished honest certs stored le entry fetched with ⟨rfl, zero⟩ | ⟨qc, -, height, about, -⟩
        · exact Nat.zero_le _
        · rw [← about.height, height]

omit [Crypto] [Bincode] in
theorem prefix_map {α β γ : Type*} {f : α → β} {g : α → γ} {l l' : List α} (h : l.map f <+: l'.map f)
    (same : ∀ a ∈ l, ∀ a' ∈ l', f a = f a' → g a = g a') : l.map g <+: l'.map g := by
  induction l generalizing l' with
  | nil => exact List.nil_prefix
  | cons a l ih =>
      cases l' with
      | nil => simp at h
      | cons a' l' =>
          rw [List.map_cons, List.map_cons, List.cons_prefix_cons] at h ⊢
          refine ⟨same a List.mem_cons_self a' List.mem_cons_self h.1, ih h.2 fun b mem b' mem' => ?_⟩
          exact same b (List.mem_cons_of_mem _ mem) b' (List.mem_cons_of_mem _ mem')

/-! ## The run of a node -/

/-- The inputs of a node. -/
def inputsAt (trace : Trace) (name : PublicKey) : List Input := (trace.filter fun step => step.1 = name).map Prod.snd

/-- What is asked of a run. -/
structure InOrder (sys : System) (trace : Trace) : Prop where
  roomy : ∀ name, sys.Honest name → RoomyRun name (sys.ordered name) Map.empty (inputsAt trace name)
  own : ∀ name, sys.Honest name → OwnAssembled name (sys.nodeAt trace name).log
  plain : ∀ name, sys.Honest name → sys.PlainCertificates trace name
  distinguished : sys.Distinguished trace
  coin : sys.CoinAgrees trace
  calls : ∀ name, sys.Honest name → SafeCalls (sys.nodeAt trace name).log
  current : sys.CurrentCommits trace
  prompt : sys.PromptVotes trace
  accepted : ∀ name, sys.Honest name → CoinAccepted (sys.nodeAt trace name).log
  digests : ∀ name, sys.Honest name → ∀ k c b b0 b1, Event.twoChain k c b b0 b1 ∈ (sys.nodeAt trace name).log →
    sys.FastDigests trace b b0 b1
  safe : ∀ name, sys.Honest name → SafeCommits (sys.nodeAt trace name).log
  orderly : ∀ name, sys.Honest name → Orderly (sys.nodeAt trace name).log
  payloads : ∀ name payload, (name, .storePayload payload) ∈ trace → Bincode.blockOfPayload payload = none

theorem InOrder.agree (asked : sys.InOrder trace) (resilient : sys.Resilient) (valid : sys.Valid trace) : sys.OutputsAgree trace :=
  SafeCalls.agree resilient valid asked.coin asked.calls

theorem InOrder.kept (asked : sys.InOrder trace) (resilient : sys.Resilient) (valid : sys.Valid trace)
    (unforged : sys.Unforged trace) : sys.FastPathKept trace :=
  asked.current.kept resilient valid unforged asked.prompt asked.accepted asked.digests asked.payloads

/-- The block of the entry is a certified one, in the form in which it is delivered in the lead of the other part. -/
def Certified (sys : System) (trace : Trace) (x : PublicKey × Block) : Prop :=
  ∃ k b0 qc, Core.leader k = x.1 ∧ x.2 = k.arranged b0 ∧ sys.Voted trace qc ∧ qc.IsFor b0 ∧ sys.Processed trace b0

/-- An act goes on with the replay. -/
theorem replayed_act {s s' : Conf} (act : Act got s s') {f : Front PublicKey SeqNumber} {led : List (PublicKey × Block)}
    (h : Replayed (sys.rules trace) f led (view s.core s.chain) s.core s.log) (all : ∀ x ∈ led, sys.Certified trace x)
    (names : Names s.core) (honest : sys.Honest key)
    (le : s'.log <+: (sys.nodeAt trace key).log) (safe : SafeCommits (sys.nodeAt trace key).log)
    (orderly : Orderly (sys.nodeAt trace key).log) (elected : s.core.leader = sys.committee.getLeader s.core.epoch)
    (guides : ∀ b, CommitReason s.core s.chain s.log b → s.chain.name = s.core.leader → SafeCommit s.core s.chain b →
      Guides (sys.rules trace) s.core.epoch s.core s.chain b)
    (fresh : ∀ b, Presented s.core s.chain b → sys.Certified trace (s.core.leader, b)) :
    ∃ f' led', Replayed (sys.rules trace) f' led' (view s'.core s'.chain) s'.core s'.log ∧ ∀ x ∈ led', sys.Certified trace x := by
  cases act.orderCase with
  | @commit fuel env b why done =>
      have called : s.log ++ [.commitCall s.core s.chain b] <+: (sys.nodeAt trace key).log := by
        subst done
        exact (Core.commit_begins fuel b ⟨s.core, s.chain, s.log, env⟩).trans le
      have turn : InTurn s.log (.commitCall s.core s.chain b) := orderly _ _ called
      have safeHere : SafeCommit s.core s.chain b := safe.1 _ _ b (called.subset (List.mem_append_right _ List.mem_cons_self))
      obtain ⟨f', blocks, replayed, presented⟩ := h.commit names fuel env b turn safeHere (guides b why turn.1 safeHere) done
      refine ⟨f', _, replayed, fun x mem => ?_⟩
      rcases List.mem_append.mp mem with old | new
      · exact all x old
      · obtain ⟨b, sent, rfl⟩ := List.mem_map.mp new
        exact fresh b (presented b sent)
  | @ended val leader output log epoch chains count =>
      have here : s.log ++ [.epochEnd s.core s.chain val] <+: (sys.nodeAt trace key).log := log ▸ le
      have ended := here.subset (List.mem_append_right _ List.mem_cons_self)
      have owner : (sys.rules trace).leader s.core.epoch = s.chain.name := by
        rw [leader, elected]
        rfl
      obtain ⟨f', replayed⟩ := h.finish (orderly _ _ here) rfl rfl owner ⟨key, _, _, val, honest, ended, rfl, rfl⟩
        (safe.2 _ _ _ ended) act.frame.chain log epoch chains count
      exact ⟨f', led, replayed, all⟩
  | still epoch sent chains count ends =>
      refine ⟨f, led, h.still epoch sent (heights_mono ?_) ends, all⟩
      apply counts_mono chains act.frame.chain
      rw [count]

/-- What is known of an honest node at any time. -/
structure Orders (sys : System) (trace : Trace) (key : PublicKey) (v : View) (k : Core) (l : List Event) : Prop where
  certs : Certs (fun _ qc => qc.eq QC.genesis = true ∨ sys.Voted trace qc) (fun _ => True) (sys.ordered key) v k l
  stored : StoresProcessed k l
  concluded : Concluded k l
  replayed : ∃ f led, Replayed (sys.rules trace) f led v k l ∧ ∀ x ∈ led, sys.Certified trace x

namespace Orders

theorem presented (resilient : sys.Resilient) (distinguished : sys.Distinguished trace) (honest : sys.Honest key) {s : Conf}
    (h : sys.Orders trace key (view s.core s.chain) s.core s.log) (le : s.log <+: (sys.nodeAt trace key).log) {b : Block}
    (presented : Presented s.core s.chain b) : sys.Certified trace (s.core.leader, b) := by
  obtain ⟨b0, listed, same⟩ := presented
  have found {name : PublicKey} {c : Chain}
      (certs : c.Certs (fun _ qc => qc.eq QC.genesis = true ∨ sys.Voted trace qc) (sys.ordered key) name)
      (listed : Listed s.core.store c b0) : ∃ qc, sys.Voted trace qc ∧ qc.IsFor b0 ∧ sys.Processed trace b0 := by
    obtain ⟨height, d, positive, entry, fetched⟩ := listed
    rcases certified_entry resilient distinguished honest certs h.stored le entry fetched with ⟨-, rfl⟩ | ⟨qc, voted, -, about, processed⟩
    · exact absurd positive (UInt64.lt_irrefl _)
    · exact ⟨qc, voted, about, processed⟩
  rcases listed with own | ⟨name, c, stored, other⟩
  · obtain ⟨qc, voted, about, processed⟩ := found (h.certs.chains _ _ (view_self _ _)) own
    exact ⟨s.core, b0, qc, rfl, same, voted, about, processed⟩
  · obtain ⟨qc, voted, about, processed⟩ := found (h.certs.stored name c stored) other
    exact ⟨s.core, b0, qc, rfl, same, voted, about, processed⟩

theorem act (resilient : sys.Resilient) (valid : sys.Valid trace) (unforged : sys.Unforged trace) (asked : sys.InOrder trace)
    (honest : sys.Honest key) {s s' : Conf} (names : Names s.core) (act : Act (Got trace key) s s')
    (le : s'.log <+: (sys.nodeAt trace key).log) (h : sys.Orders trace key (view s.core s.chain) s.core s.log) :
    sys.Orders trace key (view s'.core s'.chain) s'.core s'.log where
  certs := Certs.act ((asked.plain key honest).sources valid unforged honest) act le h.certs
  stored := h.stored.act act
  concluded := h.concluded.act act
  replayed := by
    obtain ⟨f, led, replayed, all⟩ := h.replayed
    have elected : s.core.leader = sys.committee.getLeader s.core.epoch := by
      rw [Core.leader, h.certs.same, Committee.getLeader_perm (sys.perm key)]
    apply replayed_act act replayed all names honest le (asked.safe key honest) (asked.orderly key honest) elected
    · intro b why leader safe
      exact guides resilient asked.distinguished (asked.agree resilient valid) (asked.kept resilient valid unforged) honest
        h.certs.same (h.certs.chains _ _ (view_self _ _)) h.stored h.concluded (act.frame.log.trans le) leader safe why
    · exact fun b => h.presented resilient asked.distinguished honest (act.frame.log.trans le)

end Orders

theorem certsKept (valid : sys.Valid trace) (unforged : sys.Unforged trace) (plain : sys.PlainCertificates trace key)
    (honest : sys.Honest key) : Invariant (fun input => (key, input) ∈ trace) fun v k l => l <+: (sys.nodeAt trace key).log →
      Certs (fun _ qc => qc.eq QC.genesis = true ∨ sys.Voted trace qc) (fun _ => True) (sys.ordered key) v k l :=
  certsInvariant (plain.sources valid unforged honest)

theorem ordersInvariant (resilient : sys.Resilient) (valid : sys.Valid trace) (unforged : sys.Unforged trace)
    (asked : sys.InOrder trace) (honest : sys.Honest key) : Invariant (fun input => (key, input) ∈ trace) fun v k l =>
      l <+: (sys.nodeAt trace key).log → sys.Orders trace key v k l where
  act := fun names act h le => Orders.act resilient valid unforged asked honest names act le (h (act.frame.log.trans le))
  blind := by
    intro v k l m same h le
    have orders := h le
    obtain ⟨f, led, replayed, all⟩ := orders.replayed
    refine ⟨?_, orders.stored, ⟨orders.concluded.output, orders.concluded.ended⟩,
      f, led, replayed.still rfl rfl (fun _ => le_rfl) fun _ _ _ => id, all⟩
    exact (certsKept valid unforged (asked.plain key honest) honest).blind m same (fun _ => orders.certs) le
  makePayload := by
    intro v k l transactions h le
    have before := List.prefix_append l [.signed (.payload (.new transactions k.name))]
    have orders := h (before.trans le)
    obtain ⟨f, led, replayed, all⟩ := orders.replayed
    refine ⟨?_, ?_, ?_, f, led, replayed.still rfl ?_ (fun _ => le_rfl) fun _ _ _ ended => ?_, all⟩
    · exact (certsKept valid unforged (asked.plain key honest) honest).makePayload transactions
        (fun _ => orders.certs) le
    · exact fun d value b stored decodes => (orders.stored d value b stored decodes).imp_left (before.subset ·)
    · exact (concludedInvariant fun _ => True).makePayload (v := v) transactions orders.concluded
    · rw [committed_append]
      simp [committed]
    · simpa using ended
  storePayload := by
    intro v k l payload allowed h le
    have orders := h le
    obtain ⟨f, led, replayed, all⟩ := orders.replayed
    refine ⟨?_, orders.stored.storePayload (asked.payloads key payload allowed), ⟨orders.concluded.output, orders.concluded.ended⟩,
      f, led, replayed.still rfl rfl (fun _ => le_rfl) fun _ _ _ => id, all⟩
    exact (certsKept valid unforged (asked.plain key honest) honest).storePayload payload allowed (fun _ => orders.certs) le

theorem orders (resilient : sys.Resilient) (valid : sys.Valid trace) (unforged : sys.Unforged trace) (asked : sys.InOrder trace)
    (honest : sys.Honest key) : ∃ v, sys.Orders trace key v (sys.nodeAt trace key).core (sys.nodeAt trace key).log := by
  have sound := sys.sound_of_inputs (ordersInvariant resilient valid unforged asked honest) fun _ => by
    refine ⟨Certs.init (fun _ => .inl rfl) key (sys.parameters key) Map.empty, fun d value b stored => ?_,
      ⟨fun v found => ?_, fun k c v ended => absurd ended List.not_mem_nil⟩,
      Front.first, [], ⟨.refl, rfl, rfl, rfl, fun _ => Nat.zero_le _, fun k c val ended => absurd ended List.not_mem_nil⟩,
      fun x mem => absurd mem List.not_mem_nil⟩
    · simp [first, Core.new] at stored
    · simp [first, Core.new] at found
  obtain ⟨v, holds⟩ := sound.2
  exact ⟨v, holds (List.prefix_refl _)⟩

/-! ## Two nodes -/

/-- Certified blocks of one author and height that are delivered under one leader have one digest. -/
theorem Certified.digest_eq (resilient : sys.Resilient) (valid : sys.Valid trace)
    (own : ∀ name, sys.Honest name → OwnAssembled name (sys.nodeAt trace name).log) (distinguished : sys.Distinguished trace)
    {x x' : PublicKey × Block} (h : sys.Certified trace x) (h' : sys.Certified trace x') (leader : x.1 = x'.1)
    (point : x.2.point = x'.2.point) : x.2.digest = x'.2.digest := by
  obtain ⟨k, b, qc, elected, delivered, voted, about, processed⟩ := h
  obtain ⟨k', b', qc', elected', delivered', voted', about', processed'⟩ := h'
  rw [delivered, delivered'] at point ⊢
  obtain ⟨author, height⟩ := Prod.mk.inj point
  rw [Core.arranged_author, Core.arranged_author] at author
  rw [Core.arranged_height, Core.arranged_height] at height
  have hash : qc.hash = qc'.hash := by
    apply Voted.hash_eq resilient valid own voted voted'
    · rw [about.proposer, about'.proposer, author]
    · rw [about.height, about'.height, UInt64.toNat_inj.mp height]
  have digest : b.digest = b'.digest := by rw [← about.hash, hash, about'.hash]
  obtain ⟨preimage, references⟩ := distinguished.blocks b b' processed processed' digest
  unfold Core.arranged
  rw [elected, elected']
  by_cases leads : b'.author = x'.1
  · rw [if_pos (author.trans (leads.trans leader.symm)), if_pos leads]
    exact congrArg Crypto.sha512 (Block.preimage_sorted preimage references)
  · rw [if_neg fun leads' => leads (author.symm.trans (leads'.trans leader)), if_neg leads]
    exact digest

/-- Every honest node replays the rules of the run, which leave no choice: what it has committed so far is what they serve up to
its front, each block under the leader of its epoch. -/
theorem commits_replayed (sys : System) (resilient : sys.Resilient) (trace : Trace) (valid : sys.Valid trace)
    (unforged : sys.Unforged trace) (asked : sys.InOrder trace) :
    (sys.rules trace).Functional ∧ ∀ key, sys.Honest key → ∃ (f : Front PublicKey SeqNumber) (led : List (PublicKey × Block)),
      (sys.rules trace).Run Front.first f ∧ f.epoch = (sys.nodeAt trace key).core.epoch ∧ led.map Prod.snd = committed (sys.nodeAt trace key).log ∧
      f.sent = led.map (fun x => (x.1, x.2.point)) ∧ ∀ x ∈ led, sys.Certified trace x := by
  refine ⟨rules_functional resilient valid asked.own asked.distinguished (asked.agree resilient valid), fun key honest => ?_⟩
  obtain ⟨_, orders⟩ := orders resilient valid unforged asked honest
  obtain ⟨f, led, replayed, all⟩ := orders.replayed
  exact ⟨f, led, replayed.run, replayed.epoch, replayed.blocks, replayed.sent, all⟩

end System

/-! ## The order can be checked -/

instance (before : List Event) (p : PublicKey × ℕ) : Decidable (Settled before p) := inferInstanceAs (Decidable (_ ∨ _))

omit [Crypto] [Bincode] in
theorem heights_unknown {k : Core} {c : Chain} {name : PublicKey} (other : name ≠ c.name)
    (unknown : name ∉ k.pubkeyToChain.keys) : heights k c name = 0 := by
  unfold heights counts view
  rw [if_neg other]
  cases found : k.pubkeyToChain.get? name with
  | none => rfl
  | some c' => exact absurd (Map.mem_keys found) unknown

omit [Bincode] [Crypto] in
/-- Only the heights of the chains that are kept can be unsettled. -/
theorem settled_known {before : List Event} {k : Core} {c : Chain} :
    (∀ name ∈ c.name :: k.pubkeyToChain.keys, Settled before (name, heights k c name)) ↔
      ∀ name, Settled before (name, heights k c name) := by
  refine ⟨fun all name => ?_, fun all name _ => all name⟩
  by_cases known : name ∈ c.name :: k.pubkeyToChain.keys
  · exact all name known
  · obtain ⟨other, unknown⟩ := not_or.mp fun either => known (List.mem_cons.mpr either)
    exact .inl (heights_unknown other unknown)

instance (before : List Event) : DecidablePred (InTurn before)
  | .commitCall k c _ =>
      decidable_of_iff (c.name = k.leader ∧ ∀ name ∈ c.name :: k.pubkeyToChain.keys, Settled before (name, heights k c name))
        (and_congr_right' settled_known)
  | .epochEnd _ c val =>
      @instDecidableAnd _ _ (UInt64.decLe val c.lastCommittedHeight) (inferInstanceAs (Decidable (Settled _ _)))
  | .transmit _ _ _ | .mempool _ | .payloadStatus _ _ | .request _ _ _ | .signed _ | .process _ | .voted _ _ | .assembled _ _
  | .twoChain _ _ _ _ _ | .commit _ | .savedTc _ | .assembledAba _ | .abaInput _ _ _ | .binValue _ _ _ | .abaOutput _ _ _
  | .coin _ _ _ | .coinPhase _ | .coinCall _ _ | .proofCall _ _ => inferInstanceAs (Decidable True)

/-- The rest of a log, after what has been logged before. -/
def orderlyAfter (before : List Event) : List Event → Prop
  | [] => True
  | e :: rest => InTurn before e ∧ orderlyAfter (before ++ [e]) rest

instance (before l : List Event) : Decidable (orderlyAfter before l) := by
  induction l generalizing before with
  | nil => exact inferInstanceAs (Decidable True)
  | cons e rest ih => exact inferInstanceAs (Decidable (_ ∧ _))

omit [Crypto] [Bincode] in
theorem Orderly.of_after {first l : List Event} (h : orderlyAfter first l) {before : List Event} {e : Event}
    (le : before ++ [e] <+: l) : InTurn (first ++ before) e := by
  induction l generalizing first before with
  | nil => simp at le
  | cons e' rest ih =>
      cases before with
      | nil =>
          obtain rfl := (List.cons_prefix_cons.mp le).1
          rw [List.append_nil]
          exact h.1
      | cons e'' before =>
          obtain ⟨rfl, le'⟩ := List.cons_prefix_cons.mp le
          have later := ih h.2 le'
          rwa [List.append_assoc] at later

end

/-! ## A part that one of two nodes has committed twice -/

namespace Sample

/-- The second and the fourth node see a block of the third node, and vote for it. -/
def backed (b : Block) (before : Trace) : Trace :=
  [(key 3, voteFor b 4), (key 3, voteFor b 2), (key 4, propose b), (key 2, propose b)] ++ before

/-- The block that the third node has made last. -/
def latest (trace : Trace) : Block := (signedBlocks (leaderless.nodeAt trace (key 3)).log).getLastD Block.genesis

def backedOnce : Trace := backed (firstBlock 3) []

def backedTwice : Trace := backed (latest backedOnce) backedOnce

/-- A block of the leader, on top of one for which the second and the fourth node have voted. -/
def onTop (b : Block) (references : List (PublicKey × Digest)) : Block :=
  Block.new (certify b [1, 2, 4]) b.author (b.height + 1) 0 [] references

/-- The second block of the leader refers to the second block of the third node. -/
def referencing : Block := onTop (firstBlock 1) [(key 3, (latest backedOnce).digest)]

/-- The certificate for the second block of the third node gets to the fourth node only; then the leader lets both have the
same blocks. -/
def twicePartly : Trace :=
  ([onTop (onTop (onTop referencing []) []) [], onTop (onTop referencing []) [], onTop referencing [], referencing, firstBlock 1].flatMap
    fun b => [(key 4, propose b), (key 2, propose b)]) ++ (key 4, propose (latest backedTwice)) :: backedTwice

/-- Two nodes commit the first block of the leader by the 2-chain rule, time out, and agree on 2; the second of them ends
the epoch. -/
def replayedEpoch : Trace :=
  [(key 2, aux 1 1 2), (key 2, share 1 1), (key 2, aux 3 1 2), (key 3, aux 1 1 2), (key 2, aux 1 1 2), (key 3, val 1 1 2),
    (key 3, val 2 1 2), (key 2, val 1 1 2), (key 2, val 3 1 2), (key 3, heard), (key 2, heard), (key 3, outrun), (key 2, outrun),
    (key 3, propose detached), (key 2, propose detached), (key 3, propose (above (above (firstBlock 1)))),
    (key 2, propose (above (above (firstBlock 1)))), (key 3, propose (above (firstBlock 1))),
    (key 2, propose (above (firstBlock 1))), (key 3, propose (firstBlock 1)), (key 2, propose (firstBlock 1))]
  where heard : Input := .deliver .smvba (.tc ⟨0, [statedEntry 1 2, statedEntry 2 2, statedEntry 3 2]⟩) env

theorem replayedEpoch_inOrder : leaderless.InOrder replayedEpoch := by
  have none : ∀ name ∈ four.keys, assembledChains (leaderless.nodeAt replayedEpoch name).log = [] := by decide +kernel
  have plain : ∀ name ∈ four.keys, ∀ m ∈ gotMessages replayedEpoch name, carriesPlain m = true := by decide +kernel
  have distinguished : ∀ name ∈ four.keys, ∀ b ∈ processedBlocks (leaderless.nodeAt replayedEpoch name).log,
      b.digest ≠ QC.genesis.hash ∧ ∀ name' ∈ four.keys, ∀ b' ∈ processedBlocks (leaderless.nodeAt replayedEpoch name').log,
        b.digest = b'.digest → b.preimage = b'.preimage ∧ b.references = b'.references := by
    decide +kernel
  have modest : ∀ name ∈ four.keys, ∀ input ∈ System.inputsAt replayedEpoch name, modest input = true := by decide +kernel
  have light : ∀ name ∈ four.keys, Quorum.weight four.stake {name} < four.quorumThreshold := by decide
  have coin : ∀ p ∈ four.keys, ∀ q ∈ four.keys, ∀ x ∈ coins (leaderless.nodeAt replayedEpoch p).log,
      ∀ y ∈ coins (leaderless.nodeAt replayedEpoch q).log, x.1 = y.1 → x.2 = y.2 := by
    decide +kernel
  have coinCalls_safe : ∀ name ∈ four.keys, ∀ call ∈ coinCalls (leaderless.nodeAt replayedEpoch name).log,
      SafeCoinCall call.1 call.2 ∧ AcceptedBit call.1 call.2 := by
    decide +kernel
  have proofCalls_safe : ∀ name ∈ four.keys, ∀ call ∈ proofCalls (leaderless.nodeAt replayedEpoch name).log,
      call.2.phase = AUX_PHASE := by
    decide +kernel
  have current : ∀ name ∈ four.keys, ∀ x ∈ twoChains (leaderless.nodeAt replayedEpoch name).log,
      x.2.1.name = x.1.leader ∧ x.2.2.2.2.author = x.1.leader ∧ x.2.2.2.2.epoch = x.2.1.epoch ∧
        x.2.2.1.qc.verify four = .ok () := by
    decide +kernel
  have prompt : ∀ voter ∈ four.keys, ∀ y ∈ votesOn (leaderless.nodeAt replayedEpoch voter).log,
      y.2.author = y.1.name ∧ y.2.epoch = y.1.epoch ∧ y.2.qc.height ≤ y.1.highQc.height := by
    decide +kernel
  have digests : ∀ name ∈ four.keys, ∀ x ∈ twoChains (leaderless.nodeAt replayedEpoch name).log,
      (∀ name ∈ four.keys, x.2.2.1.qc.hash.bytes ≠ name.bytes) ∧ x.2.2.2.1.digest ≠ QC.genesis.hash ∧
      ∀ voter ∈ four.keys, ∀ b ∈ votedBlocks (leaderless.nodeAt replayedEpoch voter).log,
        b.digest ≠ QC.genesis.hash ∧ (b.digest = x.2.2.2.2.digest → b.preimage = x.2.2.2.2.preimage) := by
    decide +kernel
  have ends : ∀ name ∈ four.keys, ∀ x ∈ epochEnds (leaderless.nodeAt replayedEpoch name).log,
      x.2.1.lastCommittedHeight.toNat ≤ x.2.2.toNat + 9 := by
    decide +kernel
  have safe : ∀ name ∈ four.keys, ∀ call ∈ commitCalls (leaderless.nodeAt replayedEpoch name).log, SafeCommit call.1 call.2.1 call.2.2 := by
    decide +kernel
  have orderly : ∀ name ∈ four.keys, orderlyAfter [] (leaderless.nodeAt replayedEpoch name).log := by decide +kernel
  constructor
  case roomy => exact fun name honest => roomyRun_of (modest name honest.1) (light name honest.1)
  case own =>
    intro name honest chain qc event
    have mem := mem_assembledChains event
    rw [none name honest.1] at mem
    exact absurd mem List.not_mem_nil
  case plain => exact fun name honest => plainCertificates_of (plain name honest.1) (none name honest.1)
  case distinguished =>
    constructor
    · rintro b b' ⟨name, honest, processed⟩ ⟨name', honest', processed'⟩
      exact (distinguished name honest.1 b (mem_processedBlocks processed)).2 name' honest'.1 b' (mem_processedBlocks processed')
    · rintro b ⟨name, honest, processed⟩
      exact (distinguished name honest.1 b (mem_processedBlocks processed)).1
  case coin => exact fun p q hp hq _ _ _ _ hc hd => coin p hp.1 q hq.1 _ (mem_coins hc) _ (mem_coins hd) rfl
  case calls =>
    exact fun name honest => ⟨fun core coin called => (coinCalls_safe name honest.1 _ (mem_coinCalls called)).1,
      fun core proof called => proofCalls_safe name honest.1 _ (mem_proofCalls called)⟩
  case current => exact fun name honest k c b b0 b1 committed => current name honest.1 (k, c, b, b0, b1) (mem_twoChains.mpr committed)
  case prompt =>
    intro name honest k c b b0 b1 committed voter trusted cast x voted _
    exact prompt voter trusted.1 (cast, x) (mem_votesOn voted)
  case accepted => exact fun name honest core coin called => (coinCalls_safe name honest.1 _ (mem_coinCalls called)).2
  case digests =>
    intro name honest k c b b0 b1 committed
    obtain ⟨unkeyed, genesis, voted⟩ := digests name honest.1 _ (mem_twoChains.mpr committed)
    exact ⟨fun other trusted => unkeyed other trusted.1,
      fun voter trusted cast x granted => voted voter trusted.1 x (mem_votedBlocks granted), genesis⟩
  case safe =>
    exact fun name honest => ⟨fun core chain block called => safe name honest.1 (core, chain, block) (mem_commitCalls called),
      fun core chain output ended => ends name honest.1 (core, chain, output) (mem_epochEnds ended)⟩
  case orderly => exact fun name honest before e le => Orderly.of_after (orderly name honest.1) le
  case payloads => exact fun _ _ _ => rfl

theorem replayedEpoch_replayed : (leaderless.rules replayedEpoch).Functional ∧
    ∃ (f : Front PublicKey SeqNumber) (led : List (PublicKey × Block)), (leaderless.rules replayedEpoch).Run Front.first f ∧
      f.epoch = 1 ∧ f.sent = led.map (fun x => (x.1, x.2.point)) ∧
      (led.map Prod.snd).map Block.point = [(key 1, 1), (key 1, 2)] := by
  have none : ∀ name ∈ four.keys, assembledChains (leaderless.nodeAt replayedEpoch name).log = [] := by decide +kernel
  have sent : (committed (leaderless.nodeAt replayedEpoch (key 2)).log).map Block.point = [(key 1, 1), (key 1, 2)] := by
    decide +kernel
  have reached : (leaderless.nodeAt replayedEpoch (key 2)).core.epoch = 1 := by decide +kernel
  obtain ⟨functional, all⟩ := System.commits_replayed leaderless ⟨by decide, by decide⟩ replayedEpoch (by decide +kernel)
    (unforged_of none) replayedEpoch_inOrder
  obtain ⟨f, led, run, epoch, blocks, served, -⟩ := all (key 2) (by decide)
  exact ⟨functional, f, led, run, epoch.trans reached, served, blocks ▸ sent⟩

end Sample
end HotstuffDag
