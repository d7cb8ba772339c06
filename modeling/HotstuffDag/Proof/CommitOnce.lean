import HotstuffDag.Proof.CommitLoop
import HotstuffDag.Proof.Quorum

/-! # Blocks are committed once -/

namespace HotstuffDag
open Library Library.Exec Library.Bytes

section

/-! ## What acts do to the ledger -/

section
variable {got : ConsensusMessage → Prop}

theorem AbaAct.committed [Crypto] {k k' : Core} {l l' : List Event} (act : AbaAct got k l k' l') :
    committed l' = HotstuffDag.committed l := by
  obtain ⟨more, log, each⟩ := act.more
  have nothing : HotstuffDag.committed more = [] := by
    refine List.filterMap_eq_nil_iff.mpr fun e mem => ?_
    have about := each e mem
    unfold Event.ofAba at about
    split at about <;> trivial
  rw [log, committed_append, nothing, List.append_nil]

variable [Bincode]

/-- Acts but for a commit deliver nothing, and count nothing but the heights skipped between two epochs. -/
inductive CommitCase (s s' : Conf) : Prop
  | commit {fuel : Nat} {env : Env} {b : Block}
      (done : s' = (final (Core.commit fuel b) ⟨s.core, s.chain, s.log, env⟩).conf)
  | still (sent : committed s'.log = committed s.log) (chains : s'.core.pubkeyToChain = s.core.pubkeyToChain)
      (count : s'.chain.lastCommittedHeight = s.chain.lastCommittedHeight)
  | skip {output : UInt64} (sent : committed s'.log = committed s.log)
      (chains : s'.core.pubkeyToChain = s.core.pubkeyToChain) (ended : Event.epochEnd s.core s.chain output ∈ s'.log)
      (count : s'.chain.lastCommittedHeight.toNat = output.toNat + 9)

theorem Act.commitCase [Crypto] {s s' : Conf} (act : Act got s s') : CommitCase s s' := by
  cases act with
  | aba act => exact .still act.committed act.frame.pubkeyToChain rfl
  | commit => exact .commit rfl
  | @nextEpoch k c l val digest b _ _ _ _ _ _ _ smallHeight =>
      have ended : Event.epochEnd k c val ∈ l ++ [.epochEnd k c val] := by simp
      refine .skip (by simp [committed]) rfl ended ?_
      have ten : NEXT_EPOCH_HEIGHT.toNat = 10 := rfl
      have one : UInt64.toNat 1 = 1 := rfl
      have sum : (val + NEXT_EPOCH_HEIGHT).toNat = val.toNat + 10 := by
        rw [UInt64.toNat_add, ten, Nat.mod_eq_of_lt smallHeight]
      have le : (1 : UInt64) ≤ val + NEXT_EPOCH_HEIGHT := by
        rw [UInt64.le_iff_toNat_le, sum, one]
        omega
      rw [Chain.restart, UInt64.toNat_sub_of_le _ _ le, sum, one]
      rfl
  | certify =>
      refine .still rfl rfl ?_
      unfold Chain.certify Chain.update Chain.advance
      split <;> rfl
  | countVote =>
      refine .still ?_ rfl rfl
      rw [committed_append]
      unfold Core.assembledEvents
      split <;> simp [committed]
  | countTimeout =>
      refine .still ?_ rfl rfl
      rw [committed_append]
      unfold Core.savedTcs
      split <;> simp [committed]
  | _ => exact .still (by simp [committed]) rfl rfl

end

variable [Bincode]

/-! ## The invariant -/

/-- All commits of the run are safe, and no epoch ends below a height that is committed already. -/
def SafeCommits (l : List Event) : Prop :=
  (∀ core chain block, Event.commitCall core chain block ∈ l → SafeCommit core chain block) ∧
    ∀ core chain output, Event.epochEnd core chain output ∈ l →
      chain.lastCommittedHeight.toNat ≤ output.toNat + 9

theorem SafeCommits.before {l l' : List Event} (h : SafeCommits l') (le : l <+: l') : SafeCommits l :=
  ⟨fun core chain block called => h.1 core chain block (le.subset called),
    fun core chain output ended => h.2 core chain output (le.subset ended)⟩

omit [Bincode] in
theorem counts_mono {k k' : Core} {c c' : Chain} (chains : k'.pubkeyToChain = k.pubkeyToChain) (name : c'.name = c.name)
    (count : c.lastCommittedHeight.toNat ≤ c'.lastCommittedHeight.toNat) :
    Counts (counts (view k c)) (counts (view k' c')) := by
  intro o n found
  unfold counts view at found ⊢
  rw [chains, name]
  by_cases own : o = c.name
  · rw [if_pos own] at found ⊢
    refine ⟨_, rfl, ?_⟩
    rw [← Option.some.inj found]
    exact count
  · rw [if_neg own] at found ⊢
    exact ⟨n, found, Nat.le_refl n⟩

theorem Core.commit_called (fuel : Nat) (block : Block) (s : State) :
    Event.commitCall s.core s.chain block ∈ (final (Core.commit fuel block) s).log := by
  have follow : Leads CommitFrame (Core.commitPrevBlock fuel block [] >>= fun walked => Core.deliver walked.2.reverse)
      { s with log := s.log ++ [.commitCall s.core s.chain block] } (fun _ _ => True) :=
    Leads.bind (Core.leads_commitPrevBlock fuel block [] _) fun _ _ _ _ => Core.leads_deliver _ _
  have le := follow.final.frame.log
  exact le.subset (List.mem_append_right _ (List.mem_singleton.mpr rfl))

theorem commitInvariant [Crypto] (ok : Input → Prop) :
    Invariant ok fun v _ l => SafeCommits l → CommitLedger v (committed l) where
  act := by
    intro s s' names act h safe
    have ledger := h (safe.before act.frame.log)
    cases act.commitCase with
    | @commit fuel env b done =>
        subst done
        have called := Core.commit_called fuel b ⟨s.core, s.chain, s.log, env⟩
        exact Core.commit_ledger fuel b _ names (safe.1 _ _ b called) ledger
    | still sent chains count =>
        rw [sent]
        exact ledger.mono (counts_mono chains act.frame.chain (by rw [count]))
    | skip sent chains ended count =>
        rw [sent]
        refine ledger.mono (counts_mono chains act.frame.chain ?_)
        rw [count]
        exact safe.2 _ _ _ ended
  blind := fun _ _ h => h
  makePayload := by
    intro v k l transactions h safe
    have ledger := h (safe.before (List.prefix_append _ _))
    rw [committed_append]
    simpa [committed] using ledger
  storePayload := fun _ _ h => h

/-- The hash tells the committed blocks apart. -/
def NoCollision [Crypto] (l : List Event) : Prop :=
  ∀ b ∈ committed l, ∀ b' ∈ committed l, b.digest = b'.digest → b.preimage = b'.preimage

/-- No block is committed twice in a run whose commits are safe and whose heights leave room. -/
theorem commits_once [Crypto] (name : PublicKey) (committee : Committee) (parameters : Parameters) (store : Store) (env : Env)
    (inputs : List Input) (_roomy : RoomyRun name committee store inputs)
    (safe : SafeCommits ((Node.start (Core.new name committee parameters store) env).run inputs).log)
    (collision : NoCollision ((Node.start (Core.new name committee parameters store) env).run inputs).log) :
    ((committed ((Node.start (Core.new name committee parameters store) env).run inputs).log).map
      Block.digest).Nodup := by
  have inv := commitInvariant fun _ => True
  have start : (Node.start (Core.new name committee parameters store) env).Sound _ := inv.init fun _ => Ledger.nil
  obtain ⟨_, ledger⟩ := (inv.run (fun i _ => trivial) start).2
  refine (ledger safe).nodup_map fun b mem b' mem' same => ?_
  have bytes := collision b mem b' mem' same
  simp only [Block.preimage, append_eq_iff, PublicKey.bytes_length, PublicKey.bytes_inj, SeqNumber.leBytes_length,
    SeqNumber.leBytes_inj] at bytes
  exact ⟨bytes.1, by rw [bytes.2.1]⟩

/-! ## Safety can be checked -/

/-- The blocks that a digest may be read as. -/
def fetchable (store : Store) (digest : Digest) : List Block :=
  (if digest = QC.genesis.hash then [Block.genesis] else []) ++
    match store.get? digest with
    | some value => (Synchronizer.decodeBlock value).toOption.toList
    | none => []

theorem mem_fetchable {store : Store} {digest : Digest} {b : Block} :
    b ∈ fetchable store digest ↔ Fetched store digest b := by
  unfold fetchable Fetched
  rw [List.mem_append]
  refine or_congr ?_ ?_
  · split <;> simp_all
  · cases stored : store.get? digest with
    | none => simp
    | some value => cases decodes : Synchronizer.decodeBlock value <;> simp [Except.toOption, decodes, eq_comm]

omit [Bincode] in
theorem forall_ahead_iff {c : Chain} {height : SeqNumber} {p : SeqNumber → Prop} :
    (∀ i < height.toNat - c.lastCommittedHeight.toNat, p (UInt64.ofNat (c.lastCommittedHeight.toNat + 1 + i))) ↔
      ∀ h, Ahead c height h → p h := by
  have bound := height.toNat_lt
  constructor
  · rintro all h ⟨low, high⟩
    rw [UInt64.lt_iff_toNat_lt] at low
    rw [UInt64.le_iff_toNat_le] at high
    have at' := all (h.toNat - c.lastCommittedHeight.toNat - 1) (by omega)
    rwa [show c.lastCommittedHeight.toNat + 1 + (h.toNat - c.lastCommittedHeight.toNat - 1) = h.toNat by omega,
      UInt64.ofNat_toNat] at at'
  · intro all i hi
    have small : (UInt64.ofNat (c.lastCommittedHeight.toNat + 1 + i)).toNat = c.lastCommittedHeight.toNat + 1 + i :=
      UInt64.toNat_ofNat_of_lt' (by rw [show UInt64.size = 2 ^ 64 from rfl]; omega)
    refine all _ ⟨?_, ?_⟩
    · rw [UInt64.lt_iff_toNat_lt, small]
      omega
    · rw [UInt64.le_iff_toNat_le, small]
      omega

instance (store : Store) (c : Chain) (h : SeqNumber) : Decidable (Held store c h) :=
  inferInstanceAs (Decidable (∃ d ∈ c.heightToDigest.get? h, _))

instance (store : Store) (c : Chain) (h : SeqNumber) : Decidable (Owned store c h) :=
  decidable_of_iff (∀ d ∈ c.heightToDigest.get? h, ∀ b ∈ fetchable store d, b.author = c.name ∧ b.height = h)
    ⟨fun all d b entry fetched => all d entry b (mem_fetchable.mpr fetched),
      fun owned d entry b mem => owned d b entry (mem_fetchable.mp mem)⟩

instance (c : Chain) (height : SeqNumber) (p : SeqNumber → Prop) [DecidablePred p] :
    Decidable (∀ h, Ahead c height h → p h) :=
  decidable_of_iff _ forall_ahead_iff

instance (store : Store) (c : Chain) (height : SeqNumber) : Decidable (SafeTarget store c height) :=
  decidable_of_iff ((∀ h, Ahead c height h → Owned store c h) ∧
      (Held store c (c.lastCommittedHeight + 1) → ∀ h, Ahead c height h → Held store c h))
    ⟨fun h => ⟨h.1, h.2⟩, fun h => ⟨h.owned, h.complete⟩⟩

instance (k : Core) (c : Chain) (b : Block) : Decidable (SafeReference k c b) :=
  decidable_of_iff (b.author ≠ c.name ∧ ∀ target ∈ k.pubkeyToChain.get? b.author, SafeTarget k.store target b.height)
    ⟨fun h => ⟨h.1, h.2⟩, fun h => ⟨h.other, h.target⟩⟩

instance (k : Core) (c : Chain) (b : Block) : Decidable (SafeCommit k c b) :=
  decidable_of_iff ((∀ h, Ahead c b.height h → Owned k.store c h) ∧ ∀ h, Ahead c b.height h →
      ∀ d ∈ c.heightToDigest.get? h, ∀ current ∈ fetchable k.store d, current.author = k.leader →
        ∀ p ∈ current.references, ∀ target ∈ fetchable k.store p.2, SafeReference k c target)
    ⟨fun h => ⟨h.1, fun x ahead d current entry fetched author p mem target fetched' =>
        h.2 x ahead d entry current (mem_fetchable.mpr fetched) author p mem target (mem_fetchable.mpr fetched')⟩,
      fun h => ⟨h.owned, fun x ahead d entry current mem author p mem' target mem'' =>
        h.references x ahead d current entry (mem_fetchable.mp mem) author p mem' target (mem_fetchable.mp mem'')⟩⟩

end

/-! ## A block that is committed twice -/

namespace Sample

/-- The block on top of another of its author. -/
def next (block : Block) (references : List (PublicKey × Digest)) : Block :=
  Block.new (certify block [1, 3, 4]) block.author (block.height + 1) 0 [] references

/-- The second block of the leader refers to the second block of the third authority. -/
def referring : Block := next (firstBlock 1) [(key 3, (next (firstBlock 3) []).digest)]

/-- The blocks of the third authority that the second node has seen, and then the leader's. -/
def proposals (others : List Block) : List Input :=
  (others ++ [firstBlock 1, referring, next referring [], next (next referring []) [],
    next (next (next referring []) []) []]).map propose

/-- The certificate for the second block of the third authority has not arrived. -/
def uncertified : List Input := proposals [firstBlock 3, next (firstBlock 3) []]

theorem double_commit : ¬ ((committed ((start 2).run uncertified).log).map Block.digest).Nodup := by
  decide +kernel

/-- The certificate arrives with the third block. -/
def certified : List Input := proposals [firstBlock 3, next (firstBlock 3) [], next (next (firstBlock 3) []) []]

theorem certified_commits : (committed ((start 2).run certified).log).map (fun b => (b.author, b.height)) =
      [(key 1, 1), (key 3, 1), (key 3, 2), (key 1, 2), (key 1, 3)] ∧
    ((committed ((start 2).run certified).log).map Block.digest).Nodup := by
  refine ⟨by decide +kernel, commits_once (key 2) four ⟨500⟩ Library.Map.empty env certified
    (roomyRun_of (by decide +kernel) (by decide)) ⟨?_, ?_⟩ ?_⟩
  · have all : ∀ call ∈ commitCalls ((start 2).run certified).log, SafeCommit call.1 call.2.1 call.2.2 := by
      decide +kernel
    exact fun core chain block called => all _ (mem_commitCalls called)
  · intro core chain output ended
    have none : epochEnds ((start 2).run certified).log = [] := by decide +kernel
    have mem : (core, chain, output) ∈ epochEnds ((start 2).run certified).log := mem_epochEnds ended
    rw [none] at mem
    exact absurd mem List.not_mem_nil
  · have all : ∀ b ∈ committed ((start 2).run certified).log, ∀ b' ∈ committed ((start 2).run certified).log,
        b.digest = b'.digest → b.preimage = b'.preimage := by
      decide +kernel
    exact all

end Sample
end HotstuffDag
