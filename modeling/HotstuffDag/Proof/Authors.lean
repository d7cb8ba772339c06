import HotstuffDag.Proof.Frame
import HotstuffDag.Proof.Lasting

/-! # Blocks with a known author

`commit_prev_block` unwraps the chain of the author of each block that a leader block refers to. A stored
block has a known author, but for the default digest `get_block` returns the genesis block, whose author is
the default key. -/

namespace HotstuffDag
open Library Library.Exec

/-- The digest of the genesis block, whose author is no authority. -/
def Dangling (committee : Committee) (digest : Digest) : Prop :=
  digest = QC.genesis.hash ∧ PublicKey.zero ∉ committee.keys

instance (committee : Committee) (digest : Digest) : Decidable (Dangling committee digest) :=
  inferInstanceAs (Decidable (_ ∧ _))

/-- The authors of the block and of the blocks it refers to are authorities, as far as its own fields tell. -/
structure Block.Anchored (committee : Committee) (b : Block) : Prop where
  author : b.author ∈ committee.keys
  references : ∀ r ∈ b.references, ¬ Dangling committee r.2

/-- A certificate that other blocks may refer to. -/
def QC.Anchored (committee : Committee) (qc : QC) : Prop := Dangling committee qc.hash → qc.height = 0

theorem QC.genesis_anchored (committee : Committee) : QC.genesis.Anchored committee := fun _ => rfl

theorem QC.Anchored.genesis {committee : Committee} {qc : QC} (h : qc.Anchored committee)
    (dangling : Dangling committee qc.hash) : qc.eq QC.genesis = true := by
  have height : qc.height = QC.genesis.height := h dangling
  simp [QC.eq, dangling.1, height]

variable {committee : Committee}

/-- A core whose lookups of chains all succeed. -/
structure Core.Steady [Bincode] (committee : Committee) (k : Core) : Prop where
  same : k.committee = committee
  own : k.name ∈ committee.keys
  chains : ∀ name ∈ committee.keys, (k.pubkeyToChain.get? name).isSome
  high : ∀ name c, k.pubkeyToChain.get? name = some c → c.highQc.Anchored committee
  store : ∀ d value b, k.store.get? d = some value → Synchronizer.decodeBlock value = .ok b → b.Anchored committee
  legible : Legible k.store

namespace Core.Steady
variable {k k' : Core}

theorem author [Bincode] (h : k.Steady committee) {digest : Digest} {b : Block} (anchored : ¬ Dangling committee digest)
    (fetched : Fetched k.store digest b) : b.author ∈ committee.keys := by
  rcases fetched with ⟨genesis, rfl⟩ | ⟨value, stored, decodes⟩
  · by_contra unknown
    exact anchored ⟨genesis, unknown⟩
  · exact (h.store _ value b stored decodes).author

theorem references [Bincode] (h : k.Steady committee) {digest : Digest} {b : Block} (fetched : Fetched k.store digest b) :
    ∀ r ∈ b.references, ¬ Dangling committee r.2 := by
  rcases fetched with ⟨-, rfl⟩ | ⟨value, stored, decodes⟩
  · exact fun r mem => absurd mem List.not_mem_nil
  · exact (h.store _ value b stored decodes).references

theorem congr [Bincode] (h : k.Steady committee) (keys : k'.committee = k.committee) (name : k'.name = k.name)
    (chains : k'.pubkeyToChain = k.pubkeyToChain) (store : k'.store = k.store) : k'.Steady committee := by
  refine ⟨keys.trans h.same, ?_, ?_, ?_, ?_, ?_⟩
  · rw [name]
    exact h.own
  · rw [chains]
    exact h.chains
  · rw [chains]
    exact h.high
  · rw [store]
    exact h.store
  · rw [store]
    exact h.legible

theorem insert [Bincode] (h : k.Steady committee) {name : PublicKey} {c : Chain} (high : c.highQc.Anchored committee) :
    Core.Steady committee { k with pubkeyToChain := k.pubkeyToChain.insert name c } := by
  refine ⟨h.same, h.own, fun other member => ?_, fun other c' found => ?_, h.store, h.legible⟩
  · dsimp only
    rw [Map.get?_insert]
    split
    · rfl
    · exact h.chains other member
  · rw [Map.get?_insert] at found
    split at found
    · rw [← Option.some.inj found]
      exact high
    · exact h.high other c' found

theorem hold [Bincode] [Crypto] (h : k.Steady committee) {b : Block} (anchored : b.Anchored committee) :
    (k.hold b).Steady committee := by
  refine ⟨h.same, h.own, h.chains, h.high, fun d value b' stored decodes => ?_,
    h.legible.insert (Synchronizer.block_reads b)⟩
  rcases stored_insert stored decodes with ⟨-, rfl⟩ | old
  · exact anchored
  · exact h.store d value b' old decodes

end Core.Steady

/-- A proposal refers to certificates that the other chains hold. -/
theorem Core.references_anchored {k : Core} (high : ∀ name c, k.pubkeyToChain.get? name = some c → c.highQc.Anchored committee)
    (c : Chain) : ∀ r ∈ k.references c, ¬ Dangling committee r.2 := by
  intro r mem dangling
  obtain ⟨name, -, referred⟩ := List.mem_filterMap.mp mem
  split at referred
  · contradiction
  · rename_i other found
    split at referred
    · contradiction
    · rename_i real
      rw [← Option.some.inj referred] at dangling
      exact real ((high name other found).genesis dangling)

/-! ## The handlers of blocks -/

/-- All but panics. -/
def Exn.Mild (e : Exn) : Prop := e ≠ .panic

instance : Lenient Exn.Mild := ⟨fun _ => by simp [Exn.Mild], by simp [Exn.Mild], fun _ _ => by simp [Exn.Mild]⟩

theorem Exn.mild_overflow (counter : Counter) : (Exn.overflow counter).Mild := by simp [Exn.Mild]

/-- The core of the state is steady. -/
def State.Steady [Bincode] (committee : Committee) (s : State) : Prop := s.core.Steady committee

instance [Bincode] : Deaf (State.Steady committee) := ⟨fun _ steady => steady, fun _ _ steady => steady⟩

instance [Bincode] : Readable Exn.Mild (State.Steady committee) :=
  ⟨fun steady stored decodes => absurd decodes (Core.Steady.legible steady _ _ stored)⟩

namespace Core

/-- Each referenced block is on a chain. -/
theorem calm_commitReferences [Bincode] {recurse : Block → List Block → M (Bool × List Block)}
    (calm : ∀ block toCommit, Calm Exn.Mild (State.Steady committee) (recurse block toCommit))
    (frame : ∀ block toCommit t, Leads CommitFrame (recurse block toCommit) t (fun _ _ => True))
    (references : List (PublicKey × Digest)) (anchored : ∀ r ∈ references, ¬ Dangling committee r.2) (toCommit : List Block) :
    Calm Exn.Mild (State.Steady committee) (commitReferences recurse references toCommit) := by
  induction references generalizing toCommit with
  | nil => exact calm_pure _
  | cons r rest ih =>
      intro s steady
      refine ends_getBlock (fun e env => ⟨Lenient.error e, steady⟩) (fun _ _ stored decodes => ⟨Readable.panics steady stored decodes, steady⟩)
        (fun env b fetched => ?_) fun env _ => steady
      have member := Steady.author steady (anchored r List.mem_cons_self) (Synchronizer.fetched fetched)
      have known := Steady.chains steady b.author member
      refine ends_unwrap (fun missing => ?_) fun target found => ?_
      · rw [missing] at known
        contradiction
      have walk := (calm b toCommit { s with env := env, chain := target } steady).leads (frame b toCommit _)
      refine ends_withChain walk (fun _ _ h => h) fun (done, toCommit') t ⟨kept, walked, _⟩ => ?_
      refine Ends.ite (fun _ => ?_) fun _ => Ends.pure kept
      have high : t.chain.highQc.Anchored committee := by
        rw [walked.chain_eq Chain.highQc fun _ => rfl]
        exact Steady.high steady b.author target found
      exact ih (fun r mem => anchored r (List.mem_cons_of_mem _ mem)) toCommit' _ (Steady.insert kept high)

theorem calm_commitPrevBlock [Bincode] (fuel : Nat) (block : Block) (toCommit : List Block) :
    Calm Exn.Mild (State.Steady committee) (commitPrevBlock fuel block toCommit) := by
  induction fuel generalizing block toCommit with
  | zero => exact calm_outOfFuel
  | succ fuel ih =>
      intro s steady
      have failed (e : ConsensusError) : Exn.Mild (.error e) ∧ s.Steady committee := ⟨Lenient.error e, steady⟩
      have panics {digest : Digest} (value : Value) (stored : s.core.store.get? digest = some value)
          (decodes : Synchronizer.decodeBlock value = .error .panic) : Exn.Mild .panic ∧ s.Steady committee :=
        ⟨Readable.panics steady stored decodes, steady⟩
      unfold commitPrevBlock
      refine ends_getChain (Ends.ite (fun _ => Ends.pure steady) fun _ => ?_)
      split
      · exact Ends.pure steady
      · rename_i digest _
        refine ends_getCore (ends_getBlock (fun e _ => failed e) (fun value _ => panics value)
          (fun env first fetched => ?_) fun env _ => Ends.pure steady)
        -- The second read of the block finds what the first has found.
        refine ends_getBlock (fun e _ => failed e) (fun value _ => panics value) (fun env current fetched => ?_) fun env missing => ?_
        · refine ends_unwrap (fun missing => by simp at missing) fun current' same => ?_
          obtain rfl := Option.some.inj same
          have anchored := Steady.references steady (Synchronizer.fetched fetched)
          have walk : Calm Exn.Mild (State.Steady committee) (commitReferencesOf (commitPrevBlock fuel) current toCommit) :=
            calm_bind calm_getCore fun core => calm_ite
              (calm_commitReferences ih (leads_commitPrevBlock fuel) _ (fun r mem => anchored r (mem_sortReferences.mp mem)) _)
              (calm_pure _)
          refine Ends.bind (walk _ steady) fun (done, toCommit') t kept => ?_
          exact Ends.ite (fun _ => ends_modifyChain (ih block _ _ kept)) fun _ => Ends.pure kept
        · dsimp only at missing
          rw [fetched] at missing
          contradiction

theorem calm_commit [Bincode] (fuel : Nat) (block : Block) : Calm Exn.Mild (State.Steady committee) (commit fuel block) := by
  unfold commit
  refine calm_bind calm_get fun s => calm_bind calm_log fun _ => ?_
  exact calm_bind (calm_commitPrevBlock fuel block []) fun (_, toCommit) => calm_deliver _

end Core

/-- The lookups go on to succeed if the blocks that are handled are anchored. -/
theorem lasting_steady [Bincode] [Crypto] :
    Lasting Exn.Mild (State.Steady committee) (Block.Anchored committee) (fun _ => True) (fun _ => True) where
  next := fun _ => trivial
  after := fun _ => .inl (Exn.mild_overflow _)
  grandparent := fun _ _ => .inl (Exn.mild_overflow _)
  ahead := fun _ => .inl (Exn.mild_overflow _)
  output := fun _ _ => .inl (Exn.mild_overflow _)
  high := fun _ => trivial
  own := fun _ _ => trivial
  proposal := fun {s _} _ steady _ => ⟨steady.own, Core.references_anchored steady.high s.chain⟩
  hold := fun steady anchored => Core.Steady.hold steady anchored
  certify := fun steady _ _ => steady
  lockVote := fun _ steady => steady
  countVote := fun steady _ => steady
  completed := fun _ _ _ => trivial
  countTimeout := fun _ steady => steady
  keepTc := fun _ steady => Core.Steady.congr steady rfl rfl rfl rfl
  viewChange := fun steady => Core.Steady.congr steady rfl rfl rfl rfl
  commit := Core.calm_commit
  restart := fun steady _ _ _ => Core.Steady.congr steady rfl rfl rfl rfl

end HotstuffDag
