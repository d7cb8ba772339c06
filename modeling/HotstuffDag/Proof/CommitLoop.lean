import HotstuffDag.Library.Ledger
import HotstuffDag.Library.Schedule
import HotstuffDag.Proof.Invariant

/-! # The loop of a commit

`commit_prev_block` keeps a ledger of the blocks it has put up, if the chains it walks hold blocks
of their own and a chain it is referred to is complete. -/

namespace HotstuffDag
open Library Library.Exec Library.Schedule

/-- The blocks sent on the commit channel, in order. -/
def committed (l : List Event) : List Block :=
  l.filterMap fun
    | .commit b => some b
    | _ => none

theorem committed_append (l l' : List Event) : committed (l ++ l') = committed l ++ committed l' :=
  List.filterMap_append

/-! ## When a commit is safe -/

/-- The chain has an entry for the height, and the store has its block. -/
def Held (store : Store) (c : Chain) (h : SeqNumber) : Prop :=
  ∃ d, c.heightToDigest.get? h = some d ∧ (d = QC.genesis.hash ∨ (store.get? d).isSome)

/-- The entry of the chain for the height names a block of that chain and height. -/
def Owned [Bincode] (store : Store) (c : Chain) (h : SeqNumber) : Prop :=
  ∀ d b, c.heightToDigest.get? h = some d → Fetched store d b → b.author = c.name ∧ b.height = h

/-- The heights a commit up to the given one walks through. -/
def Ahead (c : Chain) (height h : SeqNumber) : Prop := c.lastCommittedHeight < h ∧ h ≤ height

/-- A chain that a commit is referred to is walked through or not entered. -/
structure SafeTarget [Bincode] (store : Store) (c : Chain) (height : SeqNumber) : Prop where
  owned : ∀ h, Ahead c height h → Owned store c h
  complete : Held store c (c.lastCommittedHeight + 1) → ∀ h, Ahead c height h → Held store c h

structure SafeReference [Bincode] (k : Core) (c : Chain) (b : Block) : Prop where
  other : b.author ≠ c.name
  target : ∀ target, k.pubkeyToChain.get? b.author = some target → SafeTarget k.store target b.height

/-- What a commit of the chain up to the block meets. -/
structure SafeCommit [Bincode] (k : Core) (c : Chain) (b : Block) : Prop where
  owned : ∀ h, Ahead c b.height h → Owned k.store c h
  references : ∀ h, Ahead c b.height h → ∀ d current, c.heightToDigest.get? h = some d →
    Fetched k.store d current → current.author = k.leader → ∀ p ∈ current.references, ∀ target,
    Fetched k.store p.2 target → SafeReference k c target

/-! ## Chains that are not the leader's -/

/-- A stretch of a chain. -/
abbrev BlockStretch (name : PublicKey) (low high : SeqNumber) (blocks : List Block) : Prop :=
  Stretch Block.author (fun b : Block => b.height.toNat) name low.toNat high.toNat blocks

/-- The place of a block: its chain and height. -/
def Block.point (b : Block) : PublicKey × ℕ := (b.author, b.height.toNat)

theorem blockStretch_of_points {name : PublicKey} {low high : SeqNumber} {blocks : List Block} (order : low.toNat ≤ high.toNat)
    (points : blocks.reverse.map Block.point = stretch name low.toNat high.toNat) : BlockStretch name low high blocks := by
  refine ⟨order, fun b mem => ?_, ?_⟩
  · have place : b.point ∈ stretch name low.toNat high.toNat := by
      rw [← points]
      exact List.mem_map.mpr ⟨b, List.mem_reverse.mpr mem, rfl⟩
    exact mem_stretch.mp place
  · have apart : (stretch name low.toNat high.toNat).Pairwise fun p q => q.2 ≠ p.2 := by
      refine nodup_stretch.imp_of_mem fun {p q} mem mem' differ same => differ ?_
      exact Prod.ext ((mem_stretch.mp mem).1.trans (mem_stretch.mp mem').1.symm) same.symm
    rw [← points, List.pairwise_map, List.pairwise_reverse] at apart
    exact apart

/-- Only the copy of the chain that is walked along changes. -/
structure Plain (s s' : State) : Prop where
  frame : CommitFrame s s'
  core : s'.core = s.core
  committed : committed s'.log = committed s.log

instance : Std.Refl Plain := ⟨fun s => ⟨CommitFrame.refl s, rfl, rfl⟩⟩

instance : IsTrans State Plain := ⟨fun _ _ _ h h' =>
  ⟨h.frame.trans h'.frame, h'.core.trans h.core, h'.committed.trans h.committed⟩⟩

theorem Plain.env (s : State) (env : Env) : Plain s { s with env := env } := ⟨CommitFrame.env s env, rfl, rfl⟩

theorem Plain.request (s : State) (author : PublicKey) (digest : Digest) :
    Plain s { s with log := s.log ++ [.request author digest none] } :=
  ⟨CommitFrame.emit trivial, rfl, by simp [HotstuffDag.committed]⟩

theorem Plain.count (s : State) (n : SeqNumber) :
    Plain s { s with chain := { s.chain with lastCommittedHeight := n } } :=
  ⟨⟨rfl, fun _ => rfl, rfl, [], by simp, by simp⟩, rfl, rfl⟩

theorem ahead_succ {c : Chain} {height : SeqNumber} (below : ¬ c.lastCommittedHeight ≥ height) :
    Ahead c height (c.lastCommittedHeight + 1) ∧
      (c.lastCommittedHeight + 1).toNat = c.lastCommittedHeight.toNat + 1 := by
  have less : c.lastCommittedHeight.toNat < height.toNat := by
    rw [ge_iff_le, UInt64.le_iff_toNat_le] at below
    omega
  have bound := height.toNat_lt
  have next : (c.lastCommittedHeight + 1).toNat = c.lastCommittedHeight.toNat + 1 := toNat_succ (by omega)
  refine ⟨⟨?_, ?_⟩, next⟩
  · rw [UInt64.lt_iff_toNat_lt]
    omega
  · rw [UInt64.le_iff_toNat_le]
    omega

theorem Ahead.of_succ {c : Chain} {height h : SeqNumber} (below : ¬ c.lastCommittedHeight ≥ height)
    (ahead : Ahead { c with lastCommittedHeight := c.lastCommittedHeight + 1 } height h) : Ahead c height h := by
  obtain ⟨-, next⟩ := ahead_succ below
  obtain ⟨low, high⟩ := ahead
  refine ⟨?_, high⟩
  rw [UInt64.lt_iff_toNat_lt] at low ⊢
  dsimp only at low
  omega

namespace Core

/-- The walk along a complete chain reaches its end. -/
theorem leads_complete [Bincode] (fuel : Nat) (block : Block) (toCommit : List Block) (s : State)
    (foreign : s.chain.name ≠ s.core.leader)
    (owned : ∀ h, Ahead s.chain block.height h → Owned s.core.store s.chain h)
    (held : ∀ h, Ahead s.chain block.height h → Held s.core.store s.chain h) :
    Leads Plain (commitPrevBlock fuel block toCommit) s fun r s' => r.1 = true ∧
      s'.chain.lastCommittedHeight.toNat = max s.chain.lastCommittedHeight.toNat block.height.toNat ∧
      ∃ more, r.2 = more ++ toCommit ∧ more.reverse.map Block.point =
        stretch s.chain.name s.chain.lastCommittedHeight.toNat s'.chain.lastCommittedHeight.toNat := by
  induction fuel generalizing toCommit s with
  | zero => exact Leads.throw
  | succ fuel ih =>
      unfold commitPrevBlock
      refine leads_getChain (Leads.ite (fun reached => ?_) fun below => ?_)
      · rw [ge_iff_le, UInt64.le_iff_toNat_le] at reached
        refine Leads.pure ⟨rfl, (Nat.max_eq_left reached).symm, [], rfl, ?_⟩
        rw [stretch_eq_nil (Nat.le_refl _)]
        rfl
      obtain ⟨first, next⟩ := ahead_succ below
      obtain ⟨digest, entry, there⟩ := held _ first
      have absent (genesis : digest ≠ QC.genesis.hash) (none : s.core.store.get? digest = none) : False := by
        rcases there with same | stored
        · exact genesis same
        · rw [none] at stored
          contradiction
      simp only [entry]
      refine leads_getCore (leads_getBlock Plain.env (fun _ _ _ => Plain.request _ _ _) (fun env b _ => ?_)
        fun env genesis none => (absent genesis none).elim)
      refine leads_getBlock Plain.env (fun _ _ _ => Plain.request _ _ _) (fun env current fetched => ?_)
        fun env genesis none => (absent genesis none).elim
      obtain ⟨author, height⟩ := owned _ first digest current entry fetched
      refine leads_unwrap fun current' same => ?_
      obtain rfl := Option.some.inj same
      unfold commitReferencesOf
      rw [bind_assoc]
      refine leads_getCore ?_
      rw [if_neg (by rw [author]; exact foreign)]
      refine leads_pure (leads_modifyChain (Plain.count _ _) ?_)
      refine Leads.weaken (ih (s.core.arranged current :: toCommit) _ ?_ ?_ ?_) ?_
      · exact foreign
      · exact fun h ahead => owned h (ahead.of_succ below)
      · exact fun h ahead => held h (ahead.of_succ below)
      · rintro ⟨done, list⟩ s' _ ⟨rfl, reached, more, rfl, points⟩
        have within := UInt64.le_iff_toNat_le.mp first.2
        dsimp only at reached points
        rw [next] at reached points within
        have above : s.chain.lastCommittedHeight.toNat < s'.chain.lastCommittedHeight.toNat := by
          rw [reached]
          exact Nat.lt_of_lt_of_le (Nat.lt_succ_self _) (Nat.le_max_left _ _)
        refine ⟨rfl, ?_, more ++ [s.core.arranged current], by simp, ?_⟩
        · rw [reached, Nat.max_eq_right within, Nat.max_eq_right (Nat.le_of_succ_le within)]
        · rw [List.reverse_append, List.map_append, points, stretch_cons above]
          show [((s.core.arranged current).author, (s.core.arranged current).height.toNat)] ++ _ = _
          rw [arranged_author, arranged_height, author, height, next]
          rfl

/-- The walk along a chain whose first block is missing does nothing. -/
theorem leads_stuck [Bincode] (fuel : Nat) (block : Block) (toCommit : List Block) (s : State)
    (below : ¬ s.chain.lastCommittedHeight ≥ block.height)
    (missing : ¬ Held s.core.store s.chain (s.chain.lastCommittedHeight + 1)) :
    Leads Plain (commitPrevBlock fuel block toCommit) s fun r s' =>
      r = (false, toCommit) ∧ s'.chain = s.chain := by
  cases fuel with
  | zero => exact Leads.throw
  | succ fuel =>
      unfold commitPrevBlock
      refine leads_getChain ?_
      rw [if_neg below]
      split
      · exact Leads.pure ⟨rfl, rfl⟩
      · rename_i digest entry
        refine leads_getCore (leads_getBlock Plain.env (fun _ _ _ => Plain.request _ _ _) (fun env b fetched => ?_)
          fun env _ none => Leads.pure ⟨rfl, rfl⟩)
        refine absurd ⟨digest, entry, ?_⟩ missing
        rcases fetched with ⟨genesis, -⟩ | ⟨value, stored, -⟩
        · exact .inl genesis
        · exact .inr (Option.isSome_iff_exists.mpr ⟨value, stored⟩)

/-- What the walk along a referenced chain puts up is counted on that chain. -/
theorem leads_target [Bincode] (fuel : Nat) (block : Block) (toCommit : List Block) (s : State)
    (foreign : s.chain.name ≠ s.core.leader) (safe : SafeTarget s.core.store s.chain block.height) :
    Leads Plain (commitPrevBlock fuel block toCommit) s fun r s' =>
      (r.1 = false → r.2 = toCommit) ∧
      (r.1 = true → s'.chain.lastCommittedHeight.toNat = max s.chain.lastCommittedHeight.toNat block.height.toNat) ∧
      (s.chain.lastCommittedHeight ≠ s'.chain.lastCommittedHeight →
        Held s.core.store s.chain (s.chain.lastCommittedHeight + 1)) ∧
      s.chain.lastCommittedHeight ≤ s'.chain.lastCommittedHeight ∧
      ∃ more, r.2 = more ++ toCommit ∧ more.reverse.map Block.point =
        stretch s.chain.name s.chain.lastCommittedHeight.toNat s'.chain.lastCommittedHeight.toNat := by
  have still : ([] : List Block).reverse.map Block.point =
      stretch s.chain.name s.chain.lastCommittedHeight.toNat s.chain.lastCommittedHeight.toNat := by
    rw [stretch_eq_nil (Nat.le_refl _)]
    rfl
  by_cases held : Held s.core.store s.chain (s.chain.lastCommittedHeight + 1)
  · refine (leads_complete fuel block toCommit s foreign safe.owned (safe.complete held)).weaken ?_
    rintro ⟨done, list⟩ s' _ ⟨rfl, reached, put⟩
    refine ⟨fun h => by contradiction, fun _ => reached, fun _ => held, ?_, put⟩
    rw [UInt64.le_iff_toNat_le, reached]
    exact Nat.le_max_left _ _
  · by_cases below : s.chain.lastCommittedHeight ≥ block.height
    · cases fuel with
      | zero => exact Leads.throw
      | succ fuel =>
          unfold commitPrevBlock
          refine leads_getChain ?_
          rw [if_pos below]
          refine Leads.pure ⟨fun _ => rfl, fun _ => ?_, fun h => absurd rfl h, UInt64.le_refl _, [], rfl, still⟩
          exact (Nat.max_eq_left (UInt64.le_iff_toNat_le.mp below)).symm
    · refine (leads_stuck fuel block toCommit s below held).weaken ?_
      rintro ⟨done, list⟩ s' _ ⟨same, chain⟩
      obtain ⟨rfl, rfl⟩ := Prod.mk.inj same
      rw [chain]
      exact ⟨fun _ => rfl, fun h => by contradiction, fun h => absurd rfl h, UInt64.le_refl _, [], rfl, still⟩

end Core

/-! ## The chain of the leader -/

/-- How far each chain of a view is committed. -/
def counts (v : View) : PublicKey → Option ℕ := fun name => (v name).map fun c => c.lastCommittedHeight.toNat

abbrev CommitLedger (v : View) (sent : List Block) : Prop :=
  Ledger Block.author (fun b : Block => b.height.toNat) (counts v) sent

/-- A step of a commit before anything is delivered. A stored chain has moved only if its first block
was there. -/
structure Walk (s s' : State) : Prop where
  frame : CommitFrame s s'
  committed : committed s'.log = committed s.log
  counts : Counts (counts (view s.core s.chain)) (counts (view s'.core s'.chain))
  entered : ∀ name c c', s.core.pubkeyToChain.get? name = some c → s'.core.pubkeyToChain.get? name = some c' →
    c.lastCommittedHeight ≤ c'.lastCommittedHeight ∧
      (c.lastCommittedHeight ≠ c'.lastCommittedHeight → Held s.core.store c (c.lastCommittedHeight + 1))

namespace Walk
variable {s s' s'' : State}

theorem store (h : Walk s s') : s'.core.store = s.core.store := h.frame.core_eq Core.store fun _ _ => rfl

theorem leader (h : Walk s s') : s'.core.leader = s.core.leader := h.frame.core_eq Core.leader fun _ _ => rfl

theorem name (h : Walk s s') : s'.chain.name = s.chain.name := h.frame.chain_eq Chain.name fun _ => rfl

theorem entries (h : Walk s s') : s'.chain.heightToDigest = s.chain.heightToDigest :=
  h.frame.chain_eq Chain.heightToDigest fun _ => rfl

/-- A stored chain is the same up to its count. -/
theorem stored (h : Walk s s') {name : PublicKey} {c' : Chain} (found : s'.core.pubkeyToChain.get? name = some c') :
    ∃ c, s.core.pubkeyToChain.get? name = some c ∧ c'.uncommitted = c.uncommitted := by
  have same := h.frame.chains name
  rw [found, Option.map_some] at same
  obtain ⟨c, found', same'⟩ := Option.map_eq_some_iff.mp same.symm
  exact ⟨c, found', same'.symm⟩

theorem count (h : Walk s s') : s.chain.lastCommittedHeight.toNat ≤ s'.chain.lastCommittedHeight.toNat := by
  have moved := h.counts s.chain.name s.chain.lastCommittedHeight.toNat (by simp [HotstuffDag.counts])
  rw [← h.name] at moved
  simpa [HotstuffDag.counts] using moved

theorem names (h : Walk s s') (names : Names s.core) : Names s'.core := by
  intro name c' found
  obtain ⟨c, found', same⟩ := h.stored found
  have kept := Chain.uncommitted_eq Chain.name (fun _ => rfl) same
  rw [kept]
  exact names name c found'

theorem refl (s : State) : Walk s s where
  frame := CommitFrame.refl s
  committed := rfl
  counts := Counts.refl
  entered := fun name c c' found found' => by
    rw [found] at found'
    rw [← Option.some.inj found']
    exact ⟨UInt64.le_refl _, fun h => absurd rfl h⟩

theorem held {c c' : Chain} {h : SeqNumber} {store : Store} (same : c'.uncommitted = c.uncommitted) :
    Held store c' h ↔ Held store c h := by
  have entries := Chain.uncommitted_eq Chain.heightToDigest (fun _ => rfl) same
  unfold Held
  rw [entries]

theorem owned [Bincode] {c c' : Chain} {h : SeqNumber} {store : Store} (same : c'.uncommitted = c.uncommitted) :
    Owned store c' h ↔ Owned store c h := by
  have entries := Chain.uncommitted_eq Chain.heightToDigest (fun _ => rfl) same
  have name := Chain.uncommitted_eq Chain.name (fun _ => rfl) same
  unfold Owned
  rw [entries, name]

theorem trans (h : Walk s s') (h' : Walk s' s'') : Walk s s'' where
  frame := h.frame.trans h'.frame
  committed := h'.committed.trans h.committed
  counts := h.counts.trans h'.counts
  entered := by
    intro name c c'' found found''
    obtain ⟨c', found', -⟩ := h'.stored found''
    obtain ⟨c₀, found₀, same⟩ := h.stored found'
    rw [found] at found₀
    obtain rfl := Option.some.inj found₀
    obtain ⟨le, entered⟩ := h.entered name c c' found found'
    obtain ⟨le', entered'⟩ := h'.entered name c' c'' found' found''
    refine ⟨UInt64.le_trans le le', fun moved => ?_⟩
    by_cases first : c.lastCommittedHeight = c'.lastCommittedHeight
    · have later := entered' (by rwa [← first])
      rw [h.store, ← first] at later
      exact (held same).mp later
    · exact entered first

instance : Std.Refl Walk := ⟨refl⟩

instance : IsTrans State Walk := ⟨fun _ _ _ => trans⟩

/-- A step that leaves all chains alone. -/
theorem still (frame : CommitFrame s s') (same : HotstuffDag.committed s'.log = HotstuffDag.committed s.log) (core : s'.core = s.core)
    (chain : s'.chain = s.chain) : Walk s s' where
  frame := frame
  committed := same
  counts := by
    rw [core, chain]
    exact Counts.refl
  entered := by
    rw [core]
    exact (refl s).entered

theorem env (s : State) (env : Env) : Walk s { s with env := env } := still (CommitFrame.env s env) rfl rfl rfl

theorem request (s : State) (author : PublicKey) (digest : Digest) :
    Walk s { s with log := s.log ++ [.request author digest none] } :=
  still (CommitFrame.emit trivial) (by simp [HotstuffDag.committed]) rfl rfl

/-- The walk along a referenced chain, seen from the leader's. -/
theorem back {t : State} {target : Chain} (h : Plain { s with chain := target } t) :
    Walk s { t with chain := s.chain } :=
  still h.frame.back h.committed h.core rfl

/-- The chain that has been walked along is stored. -/
theorem insert {name : PublicKey} {c c' : Chain} (found : s.core.pubkeyToChain.get? name = some c)
    (same : c'.uncommitted = c.uncommitted)
    (le : c.lastCommittedHeight ≤ c'.lastCommittedHeight)
    (moved : c.lastCommittedHeight ≠ c'.lastCommittedHeight →
      Held s.core.store c (c.lastCommittedHeight + 1)) :
    Walk s { s with core := { s.core with pubkeyToChain := s.core.pubkeyToChain.insert name c' } } where
  frame := CommitFrame.stored (by rw [found, Option.map_some, same])
  committed := rfl
  counts := by
    intro o n count
    unfold HotstuffDag.counts view at count ⊢
    dsimp only
    by_cases own : o = s.chain.name
    · rw [if_pos own] at count ⊢
      exact ⟨n, count, Nat.le_refl n⟩
    · rw [if_neg own] at count
      rw [if_neg own, Map.get?_insert]
      split
      · rename_i equal
        subst equal
        rw [found, Option.map_some] at count
        refine ⟨_, rfl, ?_⟩
        rw [← Option.some.inj count]
        exact UInt64.le_iff_toNat_le.mp le
      · exact ⟨n, count, Nat.le_refl n⟩
  entered := by
    intro o d d' found' found''
    dsimp only at found''
    rw [Map.get?_insert] at found''
    split at found''
    · rename_i equal
      subst equal
      rw [found] at found'
      obtain rfl := Option.some.inj found'
      obtain rfl := Option.some.inj found''
      exact ⟨le, moved⟩
    · exact (refl s).entered o d d' found' found''

/-- The leader's chain counts a block. -/
theorem advance (s : State) {n : SeqNumber} (le : s.chain.lastCommittedHeight.toNat ≤ n.toNat) :
    Walk s { s with chain := { s.chain with lastCommittedHeight := n } } where
  frame := ⟨rfl, fun _ => rfl, rfl, [], by simp, by simp⟩
  committed := rfl
  counts := by
    intro o m count
    unfold HotstuffDag.counts view at count ⊢
    dsimp only
    by_cases own : o = s.chain.name
    · rw [if_pos own] at count ⊢
      refine ⟨n.toNat, rfl, ?_⟩
      rw [← Option.some.inj count]
      exact le
    · rw [if_neg own] at count ⊢
      exact ⟨m, count, Nat.le_refl m⟩
  entered := (refl s).entered

end Walk

/-! ### Safety is kept on the way -/

theorem SafeTarget.walk [Bincode] {store : Store} {c c' : Chain} {height : SeqNumber} (h : SafeTarget store c height)
    (same : c'.uncommitted = c.uncommitted) (le : c.lastCommittedHeight ≤ c'.lastCommittedHeight)
    (moved : c.lastCommittedHeight ≠ c'.lastCommittedHeight → Held store c (c.lastCommittedHeight + 1)) :
    SafeTarget store c' height := by
  have ahead {x : SeqNumber} (h : Ahead c' height x) : Ahead c height x := by
    refine ⟨?_, h.2⟩
    have low := h.1
    rw [UInt64.lt_iff_toNat_lt] at low ⊢
    rw [UInt64.le_iff_toNat_le] at le
    omega
  refine ⟨fun x range => (Walk.owned same).mpr (h.owned x (ahead range)), fun first x range => ?_⟩
  refine (Walk.held same).mpr (h.complete ?_ x (ahead range))
  by_cases still : c.lastCommittedHeight = c'.lastCommittedHeight
  · rw [still]
    exact (Walk.held same).mp first
  · exact moved still

theorem SafeReference.walk [Bincode] {s s' : State} {b : Block} (h : SafeReference s.core s.chain b) (walk : Walk s s') :
    SafeReference s'.core s'.chain b where
  other := by
    rw [walk.name]
    exact h.other
  target := by
    intro c' found
    obtain ⟨c, found', same⟩ := walk.stored found
    obtain ⟨le, moved⟩ := walk.entered _ c c' found' found
    rw [walk.store]
    exact (h.target c found').walk same le moved

theorem SafeCommit.walk [Bincode] {s s' : State} {b : Block} (h : SafeCommit s.core s.chain b) (walk : Walk s s') :
    SafeCommit s'.core s'.chain b := by
  have ahead {x : SeqNumber} (h : Ahead s'.chain b.height x) : Ahead s.chain b.height x := by
    refine ⟨?_, h.2⟩
    have low := h.1
    have le := walk.count
    rw [UInt64.lt_iff_toNat_lt] at low ⊢
    omega
  refine ⟨fun x range => ?_, fun x range d current entry fetched author p mem target fetched' => ?_⟩
  · rw [walk.store]
    exact (Walk.owned walk.frame.chain).mpr (h.owned x (ahead range))
  · rw [walk.entries] at entry
    rw [walk.store] at fetched fetched'
    rw [walk.leader] at author
    exact (h.references x (ahead range) d current entry fetched author p mem target fetched').walk walk

/-! ### The walk -/

theorem counts_self (k : Core) (c : Chain) : counts (view k c) c.name = some c.lastCommittedHeight.toNat := by
  simp [counts]

theorem counts_stored {k : Core} {c target : Chain} {name : PublicKey} (other : name ≠ c.name)
    (found : k.pubkeyToChain.get? name = some target) :
    counts (view k c) name = some target.lastCommittedHeight.toNat := by
  simp [counts, view, other, found]

namespace Core

theorem leads_withChain_walk {β γ : Type} {s : State} {Q : β → State → Prop} {T : γ → State → Prop} {target : Chain}
    {x : M γ} {f : γ × Chain → M β} (run : Leads Plain x { s with chain := target } T)
    (h : ∀ a t, Plain { s with chain := target } t → T a t → Leads Walk (f (a, t.chain)) { t with chain := s.chain } Q) :
    Leads Walk (withChain target x >>= f) s Q := by
  unfold Leads at run ⊢
  rw [bind_eq]
  unfold withChain
  cases exit : x { s with chain := target } with
  | ok a t =>
      rw [exit] at run
      exact (h a t run.1 run.2).after (Walk.back run.1)
  | error e t =>
      rw [exit] at run
      exact Walk.back run

theorem leads_references [Bincode] (fuel : Nat) (references : List (PublicKey × Digest)) (toCommit old : List Block) (s : State)
    (leader : s.chain.name = s.core.leader) (names : Names s.core)
    (safe : ∀ p ∈ references, ∀ target, Fetched s.core.store p.2 target → SafeReference s.core s.chain target)
    (ledger : CommitLedger (view s.core s.chain) (toCommit ++ old)) :
    Leads Walk (commitReferences (commitPrevBlock fuel) references toCommit) s fun r s' =>
      s'.chain = s.chain ∧ CommitLedger (view s'.core s'.chain) (r.2 ++ old) := by
  induction references generalizing toCommit s with
  | nil => exact Leads.pure ⟨rfl, ledger⟩
  | cons reference rest ih =>
      refine leads_getCore (leads_getBlock Walk.env (fun _ _ _ => Walk.request _ _ _) (fun env block fetched => ?_)
        fun env _ _ => Leads.pure ⟨rfl, ledger⟩)
      refine leads_getCore (leads_unwrap fun target found => ?_)
      have reference := safe reference (List.mem_cons_self) block fetched
      have named := names _ _ found
      have foreign : target.name ≠ s.core.leader := by
        rw [named, ← leader]
        exact reference.other
      refine leads_withChain_walk (leads_target fuel block toCommit _ foreign (reference.target target found)) ?_
      rintro ⟨done, list⟩ t plain ⟨unfinished, -, moved, le, more, rfl, points⟩
      have stretch := blockStretch_of_points (UInt64.le_iff_toNat_le.mp le) points
      refine Leads.ite (fun _ => ?_) fun stuck => ?_
      · have core : t.core = s.core := plain.core
        have found' : t.core.pubkeyToChain.get? block.author = some target := by rw [core]; exact found
        have stored : Walk { t with chain := s.chain } { t with
            core := { t.core with pubkeyToChain := t.core.pubkeyToChain.insert block.author t.chain }
            chain := s.chain } :=
          Walk.insert found' plain.frame.chain le (by rw [core]; exact moved)
        have walk := ((Walk.env s env).trans (Walk.back plain)).trans stored
        refine leads_modifyCore stored (Leads.weaken (ih (more ++ toCommit) _ ?_ ?_ ?_ ?_) ?_)
        · rw [walk.leader]
          exact leader
        · exact walk.names names
        · intro p mem b fetched
          rw [walk.store] at fetched
          exact (safe p (List.mem_cons_of_mem _ mem) b fetched).walk walk
        · rw [List.append_assoc]
          refine ledger.append walk.counts (by rwa [named] at stretch) (counts_stored reference.other found) ?_
          exact counts_stored reference.other (Map.get?_insert_self _ _ _)
        · exact fun _ _ _ h => h
      · refine Leads.pure ⟨rfl, ?_⟩
        rw [unfinished (by simpa using stuck)]
        exact ledger.mono (Walk.back plain).counts

/-- A safe commit keeps the ledger. -/
theorem leads_walk [Bincode] (fuel : Nat) (block : Block) (toCommit old : List Block) (s : State) (names : Names s.core)
    (safe : SafeCommit s.core s.chain block) (ledger : CommitLedger (view s.core s.chain) (toCommit ++ old)) :
    Leads Walk (commitPrevBlock fuel block toCommit) s fun r s' =>
      CommitLedger (view s'.core s'.chain) (r.2 ++ old) := by
  induction fuel generalizing toCommit s with
  | zero => exact Leads.throw
  | succ fuel ih =>
      unfold commitPrevBlock
      refine leads_getChain (Leads.ite (fun _ => Leads.pure ledger) fun below => ?_)
      obtain ⟨first, next⟩ := ahead_succ below
      split
      · exact Leads.pure ledger
      · rename_i digest entry
        refine leads_getCore (leads_getBlock Walk.env (fun _ _ _ => Walk.request _ _ _) (fun env b _ => ?_)
          fun env _ _ => Leads.pure ledger)
        refine leads_getBlock Walk.env (fun _ _ _ => Walk.request _ _ _) (fun env current fetched => ?_)
          fun env _ _ => leads_panic
        refine leads_unwrap fun current' same => ?_
        obtain rfl := Option.some.inj same
        obtain ⟨author, height⟩ := safe.owned _ first digest current entry fetched
        refine Leads.bind (Q := fun r t => t.chain = s.chain ∧ CommitLedger (view t.core t.chain) (r.2 ++ old)) ?_ ?_
        · refine leads_getCore (Leads.ite (fun leader => ?_) fun _ => Leads.pure ⟨rfl, ledger⟩)
          refine leads_references fuel _ toCommit old _ (author.symm.trans leader) names ?_ ledger
          intro p mem target fetched'
          exact safe.references _ first digest current entry fetched leader p (mem_sortReferences.mp mem) target fetched'
        · rintro ⟨done, list⟩ t walk ⟨chain, ledger'⟩
          refine Leads.ite (fun _ => ?_) fun _ => Leads.pure ledger'
          have counted : Walk t { t with chain := { t.chain with
              lastCommittedHeight := t.chain.lastCommittedHeight + 1 } } := by
            refine Walk.advance t ?_
            rw [chain, next]
            exact Nat.le_succ _
          have whole := (Walk.env s env).trans (walk.trans counted)
          refine leads_modifyChain counted (ih (s.core.arranged current :: list) _ (whole.names names) (safe.walk whole) ?_)
          have single : BlockStretch s.chain.name s.chain.lastCommittedHeight (s.chain.lastCommittedHeight + 1)
              [s.core.arranged current] := by
            refine Stretch.snoc .nil ((arranged_author _ _).trans author) ?_ ?_
            · rw [arranged_height, height, next]
              exact Nat.lt_succ_self _
            · rw [arranged_height, height]
          refine ledger'.append counted.counts single ?_ ?_
          · rw [← chain]
            exact counts_self _ _
          · rw [← chain]
            exact counts_self _ { t.chain with lastCommittedHeight := t.chain.lastCommittedHeight + 1 }

theorem deliver_run (toCommit : List Block) (s : State) :
    ∃ log, deliver toCommit s = .ok () { s with log := log } ∧ committed log = committed s.log ++ toCommit := by
  induction toCommit generalizing s with
  | nil => exact ⟨s.log, rfl, (List.append_nil _).symm⟩
  | cons block rest ih =>
      unfold deliver
      by_cases payload : block.payload ≠ []
      · obtain ⟨log, run, same⟩ := ih { s with
          log := s.log ++ [.mempool (.cleanup block.payload block.height)] ++ [.commit block] }
        refine ⟨log, ?_, ?_⟩
        · rw [if_pos payload]
          exact run
        · rw [same]
          simp [committed]
      · obtain ⟨log, run, same⟩ := ih { s with log := s.log ++ [.commit block] }
        refine ⟨log, ?_, ?_⟩
        · rw [if_neg payload]
          exact run
        · rw [same]
          simp [committed]

/-- A safe commit delivers what the ledger allows. -/
theorem commit_ledger [Bincode] (fuel : Nat) (block : Block) (s : State) (names : Names s.core)
    (safe : SafeCommit s.core s.chain block) (ledger : CommitLedger (view s.core s.chain) (committed s.log)) :
    CommitLedger (view (final (commit fuel block) s).core (final (commit fuel block) s).chain)
        (committed (final (commit fuel block) s).log) := by
  have walked := leads_walk fuel block [] (committed s.log)
    { s with log := s.log ++ [.commitCall s.core s.chain block] } names safe ledger
  unfold final commit
  simp only [bind_eq, get_run, emit_run]
  unfold Leads at walked
  cases exit : commitPrevBlock fuel block [] { s with log := s.log ++ [.commitCall s.core s.chain block] } with
  | ok r t =>
      rw [exit] at walked
      obtain ⟨log, run, same⟩ := deliver_run r.2.reverse t
      have before : committed t.log = committed s.log := by
        rw [walked.1.committed]
        simp [committed]
      simp only [run, same, before]
      refine walked.2.perm ?_
      exact (List.perm_append_comm).trans (List.Perm.append_left _ (List.reverse_perm _).symm)
  | error e t =>
      rw [exit] at walked
      have before : committed t.log = committed s.log := by
        rw [walked.committed]
        simp [committed]
      simp only [before]
      exact ledger.mono walked.counts

end Core
end HotstuffDag
