import HotstuffDag.Library.Schedule
import HotstuffDag.Proof.CommitOnce

/-! # The order of a commit

The heights of the leader's chain ask for the blocks they refer to and then for their own block. A commit that
returns `true` has put up what a schedule of these requests serves. -/

namespace HotstuffDag
open Library Library.Exec Library.Schedule

section
variable [Bincode]

/-! ## What a commit is to put up -/

/-- The block that the chain has for the height. -/
def Chain.blockAt (store : Store) (c : Chain) (height : ℕ) : Option Block :=
  (c.heightToDigest.get? (UInt64.ofNat height)).bind (Synchronizer.fetch store)

/-- How far each chain is committed. -/
def heights (k : Core) (c : Chain) (name : PublicKey) : ℕ := (counts (view k c) name).getD 0

namespace Core

/-- The block of the chain and height, as a commit puts it up: a block of the leader has its references sorted. -/
def scheduled (k : Core) (c : Chain) (p : PublicKey × ℕ) : Option Block :=
  ((view k c p.1).bind fun chain => chain.blockAt k.store p.2).map k.arranged

def asks (k : Core) (reference : PublicKey × Digest) : Option (PublicKey × ℕ) :=
  (Synchronizer.fetch k.store reference.2).map fun b => (b.author, b.height.toNat)

/-- The references of a leader block, by their keys. -/
def asksOf (k : Core) (current : Block) : List (PublicKey × ℕ) :=
  if current.author = k.leader then (sortReferences current.references).filterMap k.asks else []

def requestsAt (k : Core) (c : Chain) (height : ℕ) : List (PublicKey × ℕ) :=
  (c.blockAt k.store height).elim [] k.asksOf ++ [(c.name, height)]

def requests (k : Core) (c : Chain) (low high : ℕ) : List (PublicKey × ℕ) :=
  (List.range' (low + 1) (high - low)).flatMap (k.requestsAt c)

/-- The chains and heights in the order in which a commit of the block puts them up. -/
def commitSchedule (k : Core) (c : Chain) (block : Block) : List (PublicKey × ℕ) :=
  schedule (heights k c) (k.requests c c.lastCommittedHeight.toNat block.height.toNat)

/-- The references of leader blocks point only to blocks of other authors in the committee. -/
def RefersToOthers (k : Core) : Prop :=
  ∀ digest current, Synchronizer.fetch k.store digest = some current → current.author = k.leader →
    ∀ r ∈ current.references, ∀ b, Synchronizer.fetch k.store r.2 = some b → b.author ≠ k.leader ∧ b.author ∈ k.committee.keys

/-- On the chain every leader block is without references. -/
def Bare (k : Core) (c : Chain) : Prop :=
  ∀ h d current, c.heightToDigest.get? h = some d → Synchronizer.fetch k.store d = some current →
    current.author = k.leader → current.references = []

def Unmixed (k : Core) : Prop := ∀ name c, name ≠ k.leader → k.pubkeyToChain.get? name = some c → k.Bare c

end Core

/-- From `s` to `t` the blocks of the schedule have been put up in front of the list, each height once, and the chains
have got as far as that. -/
structure CommitsInOrder (block : Block) (list list' : List Block) (s t : State) : Prop where
  appended : ∃ blocks : List Block, list' = blocks.reverse ++ list ∧
    blocks.map some = (s.core.commitSchedule s.chain block).map (s.core.scheduled s.chain)
  once : (s.core.commitSchedule s.chain block).Nodup
  passed : LargestServed (s.core.commitSchedule s.chain block) s.chain.name s.chain.lastCommittedHeight.toNat
    t.chain.lastCommittedHeight.toNat
  stored : ∀ name c, name ≠ s.chain.name → s.core.pubkeyToChain.get? name = some c → ∃ c',
    t.core.pubkeyToChain.get? name = some c' ∧ LargestServed (s.core.commitSchedule s.chain block) name
      c.lastCommittedHeight.toNat c'.lastCommittedHeight.toNat

/-! ## Along a chain -/

theorem Chain.blockAt_congr {store : Store} {c c' : Chain} (same : c'.uncommitted = c.uncommitted) :
    c'.blockAt store = c.blockAt store := by
  unfold Chain.blockAt
  rw [Chain.uncommitted_eq Chain.heightToDigest (fun _ => rfl) same]

section
omit [Bincode]

theorem heights_self (k : Core) (c : Chain) : heights k c c.name = c.lastCommittedHeight.toNat := by
  rw [heights, counts_self]
  rfl

theorem heights_stored {k : Core} {c target : Chain} {name : PublicKey} (other : name ≠ c.name)
    (found : k.pubkeyToChain.get? name = some target) : heights k c name = target.lastCommittedHeight.toNat := by
  rw [heights, counts_stored other found]
  rfl

theorem heights_insert {k : Core} {c target : Chain} {name : PublicKey} (other : name ≠ c.name) :
    heights { k with pubkeyToChain := k.pubkeyToChain.insert name target } c =
      Function.update (heights k c) name target.lastCommittedHeight.toNat := by
  funext name'
  by_cases same : name' = name
  · subst same
    rw [Function.update_self]
    exact heights_stored other (Map.get?_insert_self _ _ _)
  · rw [Function.update_of_ne same]
    unfold heights counts view
    rw [Map.get?_insert_ne _ _ (Ne.symm same)]

theorem heights_advance (k : Core) (c : Chain) (n : SeqNumber) :
    heights k { c with lastCommittedHeight := n } = Function.update (heights k c) c.name n.toNat := by
  funext name
  by_cases same : name = c.name
  · subst same
    rw [Function.update_self]
    exact heights_self k { c with lastCommittedHeight := n }
  · rw [Function.update_of_ne same]
    unfold heights counts view
    rw [if_neg same, if_neg same]

end

/-- The walk has put up the blocks of the chain up to the block. -/
structure Filled (o : PublicKey) (block : Block) (list list' : List Block) (t t' : State) : Prop where
  core : t'.core = t.core
  reached : t'.chain.lastCommittedHeight.toNat = max t.chain.lastCommittedHeight.toNat block.height.toNat
  blocks : ∃ blocks : List Block, list' = blocks.reverse ++ list ∧ blocks.map some =
    (stretch o t.chain.lastCommittedHeight.toNat block.height.toNat).map fun p =>
      (t.chain.blockAt t.core.store p.2).map t.core.arranged

namespace Core

/-- The walk along a chain that sends it nowhere else. -/
theorem ends_bare (o : PublicKey) (fuel : Nat) (block : Block) (list : List Block) (t : State) (bare : t.core.Bare t.chain) :
    Ends (commitPrevBlock fuel block list) t (fun r t' => r.1 = true → Filled o block list r.2 t t') fun _ _ => True := by
  induction fuel generalizing list t with
  | zero => exact Ends.throw trivial
  | succ fuel ih =>
      unfold commitPrevBlock
      apply ends_getChain
      apply Ends.ite
      · intro reached
        rw [ge_iff_le, UInt64.le_iff_toNat_le] at reached
        refine Ends.pure fun _ => ⟨rfl, (Nat.max_eq_left reached).symm, [], rfl, ?_⟩
        rw [stretch_eq_nil reached]
        rfl
      · intro below
        obtain ⟨⟨-, within⟩, next⟩ := ahead_succ below
        rw [UInt64.le_iff_toNat_le, next] at within
        split
        · exact Ends.pure fun h => by contradiction
        · rename_i digest entry
          apply ends_getCore
          apply ends_getBlock (fun _ _ => trivial) (fun _ _ _ _ => trivial)
          · intro env _ _
            apply ends_getBlock (fun _ _ => trivial) (fun _ _ _ _ => trivial)
            · intro env' current fetched
              apply ends_unwrap (fun _ => trivial)
              intro current' same
              obtain rfl := Option.some.inj same
              have nowhere : commitReferencesOf (commitPrevBlock fuel) current list { t with env := env' } =
                  .ok (true, list) { t with env := env' } := by
                unfold commitReferencesOf
                simp only [bind_eq, getCore_run]
                split
                · rename_i leader
                  rw [bare _ digest current entry fetched leader]
                  rfl
                · rfl
              unfold Ends
              rw [bind_eq, nowhere]
              apply ends_modifyChain
              refine Ends.weaken (ih (t.core.arranged current :: list) _ ?_) (fun r t' put finished => ?_) fun _ _ _ => trivial
              · exact bare
              obtain ⟨core, reached, blocks, appended, each⟩ := put finished
              dsimp only at core reached each
              rw [next] at reached each
              have here : t.chain.blockAt t.core.store (t.chain.lastCommittedHeight.toNat + 1) = some current := by
                unfold Chain.blockAt
                rw [← next, UInt64.ofNat_toNat, entry]
                exact fetched
              refine ⟨core, by omega, t.core.arranged current :: blocks, by simp [appended], ?_⟩
              rw [stretch_cons (by omega), List.map_cons, List.map_cons, each, here]
              rfl
            · exact fun _ _ => Ends.throw trivial
          · exact fun _ _ => Ends.pure fun h => by contradiction

/-! ## Serving the requests -/

/-- What has been served on the way from `s`. -/
structure Serving (s : State) (list : List Block) (served : List (PublicKey × ℕ)) (list' : List Block) (t : State) : Prop where
  frame : CommitFrame s t
  reached : Reaches (heights s.core s.chain) (heights t.core t.chain) served
  blocks : ∃ blocks : List Block, list' = blocks.reverse ++ list ∧ blocks.map some = served.map (s.core.scheduled s.chain)

namespace Serving
variable {s t t' : State} {list list' : List Block} {served : List (PublicKey × ℕ)}

theorem start (s : State) (list : List Block) : Serving s list [] list s :=
  ⟨.refl s, .nil _, [], rfl, rfl⟩

theorem env (h : Serving s list served list' t) (env : Env) : Serving s list served list' { t with env := env } :=
  ⟨h.frame.trans (.env t env), h.reached, h.blocks⟩

/-- A request is served if the blocks from the count of its chain on are put up and the count follows. -/
theorem serve (h : Serving s list served list' t) (t' : State) (o : PublicKey) (high : ℕ) (blocks : List Block) (frame : CommitFrame t t')
    (counted : heights t'.core t'.chain = Function.update (heights t.core t.chain) o (max (heights t.core t.chain o) high))
    (each : blocks.map some = (stretch o (heights t.core t.chain o) high).map (s.core.scheduled s.chain)) :
    Serving s list (serve (heights s.core s.chain) served (o, high)) (blocks.reverse ++ list') t' where
  frame := h.frame.trans frame
  reached := by
    rw [counted]
    exact h.reached.serve o high
  blocks := by
    obtain ⟨old, rfl, before⟩ := h.blocks
    refine ⟨old ++ blocks, by simp, ?_⟩
    rw [Schedule.serve, h.reached.missing_eq, List.map_append, List.map_append, before, each]

end Serving

theorem scheduled_stretch {k : Core} {c c' : Chain} {o : PublicKey} {low high : ℕ} (found : view k c o = some c') :
    (stretch o low high).map (k.scheduled c) = (stretch o low high).map fun p => (c'.blockAt k.store p.2).map k.arranged := by
  apply List.map_congr_left
  rintro ⟨o', h⟩ mem
  obtain ⟨rfl, -⟩ := mem_stretch.mp mem
  unfold scheduled
  rw [found]
  rfl

variable {s : State} {list : List Block}

theorem serves_references (leader : s.chain.name = s.core.leader) (unmixed : s.core.Unmixed) (fuel : Nat)
    (references : List (PublicKey × Digest))
    (others : ∀ r ∈ references, ∀ b, Synchronizer.fetch s.core.store r.2 = some b → b.author ≠ s.core.leader)
    (served : List (PublicKey × ℕ)) (list' : List Block) (t : State) (serving : Serving s list served list' t) :
    Ends (commitReferences (commitPrevBlock fuel) references list') t (fun r t' => r.1 = true → t'.chain = t.chain ∧
      Serving s list ((references.filterMap s.core.asks).foldl (serve (heights s.core s.chain)) served) r.2 t')
      fun _ _ => True := by
  induction references generalizing served list' t with
  | nil => exact Ends.pure fun _ => ⟨rfl, serving⟩
  | cons reference rest ih =>
      have store : t.core.store = s.core.store := serving.frame.core_eq Core.store fun _ _ => rfl
      have same : t.core.leader = s.core.leader := serving.frame.core_eq Core.leader fun _ _ => rfl
      have name : t.chain.name = s.chain.name := serving.frame.chain_eq Chain.name fun _ => rfl
      apply ends_getCore
      apply ends_getBlock (fun _ _ => trivial) (fun _ _ _ _ => trivial)
      · intro env block fetched
        rw [store] at fetched
        have foreign := others reference List.mem_cons_self block fetched
        have other : block.author ≠ t.chain.name := by
          rw [name, leader]
          exact foreign
        apply ends_getCore
        apply ends_unwrap (fun _ => trivial)
        intro target found
        have chains := serving.frame.chains block.author
        rw [found] at chains
        obtain ⟨c, found₀, uncommitted⟩ := Option.map_eq_some_iff.mp chains.symm
        have bare : t.core.Bare target := by
          intro h d current entry fetched' author
          rw [Chain.uncommitted_eq Chain.heightToDigest (fun _ => rfl) uncommitted.symm] at entry
          rw [store] at fetched'
          exact unmixed block.author c foreign found₀ h d current entry fetched' (author.trans same)
        have walk := (ends_bare block.author fuel block list' { t with env := env, chain := target } bare).leads
          (leads_commitPrevBlock fuel block list' { t with env := env, chain := target })
        apply ends_withChain walk (fun _ _ _ => trivial)
        rintro ⟨done, list''⟩ t' ⟨put, frame, -⟩
        apply Ends.ite
        · intro finished
          obtain ⟨core, reached, blocks, rfl, each⟩ := put finished
          dsimp only at core reached each
          apply ends_modifyCore
          have low : heights t.core t.chain block.author = target.lastCommittedHeight.toNat := heights_stored other found
          have seen : view s.core s.chain block.author = some c := by
            unfold view
            rw [if_neg (name ▸ other), found₀]
          have next := serving.serve { t' with
              core := { t'.core with pubkeyToChain := t'.core.pubkeyToChain.insert block.author t'.chain }
              chain := t.chain } block.author block.height.toNat blocks ?_ ?_ ?_
          · refine Ends.weaken (ih (fun r mem => others r (List.mem_cons_of_mem _ mem)) _ _ _ next) (fun r t'' served' finished' => ?_)
              fun _ _ _ => trivial
            obtain ⟨chain, served'⟩ := served' finished'
            refine ⟨chain, ?_⟩
            have asked : s.core.asks reference = some (block.author, block.height.toNat) := by
              unfold asks
              rw [fetched]
              rfl
            rw [List.filterMap_cons_some asked]
            exact served'
          · apply (CommitFrame.env t env).trans
            apply (CommitFrame.back (s := { t with env := env }) frame).trans
            apply CommitFrame.stored
            dsimp only
            rw [core, found]
            exact congrArg some frame.chain.symm
          · dsimp only
            rw [heights_insert other, core, low, reached]
          · have arranges : t.core.arranged = s.core.arranged := funext (arranged_congr same)
            rw [each, low, scheduled_stretch seen, store, arranges, Chain.blockAt_congr uncommitted.symm]
        · exact fun _ => Ends.pure fun h => by contradiction
      · exact fun _ _ => Ends.pure fun h => by contradiction

theorem requests_cons (k : Core) (c : Chain) {low high : ℕ} (lt : low < high) :
    k.requests c low high = k.requestsAt c (low + 1) ++ k.requests c (low + 1) high := by
  unfold requests
  rw [show high - low = (high - (low + 1)) + 1 by omega, List.range'_succ, List.flatMap_cons]

/-- Each height of the leader's chain serves its requests. -/
theorem serves_commit (leader : s.chain.name = s.core.leader) (others : s.core.RefersToOthers) (unmixed : s.core.Unmixed)
    (fuel : Nat) (block : Block) (served : List (PublicKey × ℕ)) (list' : List Block) (t : State)
    (serving : Serving s list served list' t) :
    Ends (commitPrevBlock fuel block list') t (fun r t' => r.1 = true → Serving s list
      ((s.core.requests s.chain t.chain.lastCommittedHeight.toNat block.height.toNat).foldl
        (serve (heights s.core s.chain)) served) r.2 t') fun _ _ => True := by
  induction fuel generalizing served list' t with
  | zero => exact Ends.throw trivial
  | succ fuel ih =>
      have store : t.core.store = s.core.store := serving.frame.core_eq Core.store fun _ _ => rfl
      have same : t.core.leader = s.core.leader := serving.frame.core_eq Core.leader fun _ _ => rfl
      have name : t.chain.name = s.chain.name := serving.frame.chain_eq Chain.name fun _ => rfl
      have entries : t.chain.heightToDigest = s.chain.heightToDigest := serving.frame.chain_eq Chain.heightToDigest fun _ => rfl
      unfold commitPrevBlock
      apply ends_getChain
      apply Ends.ite
      · intro reached
        rw [ge_iff_le, UInt64.le_iff_toNat_le] at reached
        refine Ends.pure fun _ => ?_
        unfold requests
        rw [Nat.sub_eq_zero_of_le reached]
        exact serving
      · intro below
        obtain ⟨⟨-, within⟩, next⟩ := ahead_succ below
        rw [UInt64.le_iff_toNat_le, next] at within
        split
        · exact Ends.pure fun h => by contradiction
        · rename_i digest entry
          rw [entries] at entry
          apply ends_getCore
          apply ends_getBlock (fun _ _ => trivial) (fun _ _ _ _ => trivial)
          · intro env _ _
            apply ends_getBlock (fun _ _ => trivial) (fun _ _ _ _ => trivial)
            · intro env' current fetched
              rw [store] at fetched
              apply ends_unwrap (fun _ => trivial)
              intro current' equal
              obtain rfl := Option.some.inj equal
              have here : s.chain.blockAt s.core.store (t.chain.lastCommittedHeight.toNat + 1) = some current := by
                unfold Chain.blockAt
                rw [← next, UInt64.ofNat_toNat, entry]
                exact fetched
              have walked : Ends (commitReferencesOf (commitPrevBlock fuel) current list') { t with env := env' }
                  (fun r t' => r.1 = true → t'.chain = t.chain ∧ Serving s list
                    ((s.core.asksOf current).foldl (serve (heights s.core s.chain)) served) r.2 t') fun _ _ => True := by
                unfold commitReferencesOf asksOf
                apply ends_getCore
                dsimp only
                rw [same]
                split
                · rename_i author
                  apply serves_references leader unmixed fuel _ _ served list' _ (serving.env env')
                  intro r mem b fetched'
                  exact (others digest current fetched author r (mem_sortReferences.mp mem) b fetched').1
                · exact Ends.pure fun _ => ⟨rfl, serving.env env'⟩
              apply Ends.bind walked
              rintro ⟨done, list''⟩ t' asked
              apply Ends.ite
              · intro finished
                obtain ⟨chain, served'⟩ := asked finished
                apply ends_modifyChain
                have count : heights t'.core t'.chain s.chain.name = t.chain.lastCommittedHeight.toNat := by
                  rw [← name, ← chain]
                  exact heights_self _ _
                have own := served'.serve { t' with
                    chain := { t'.chain with lastCommittedHeight := t'.chain.lastCommittedHeight + 1 } }
                  s.chain.name (t.chain.lastCommittedHeight.toNat + 1) [t.core.arranged current] ?_ ?_ ?_
                · refine Ends.weaken (ih _ _ _ own) (fun r t'' whole finished' => ?_) fun _ _ _ => trivial
                  have whole := whole finished'
                  dsimp only at whole
                  rw [chain, next] at whole
                  rw [requests_cons _ _ within, requestsAt, here, List.foldl_append, List.foldl_append]
                  exact whole
                · exact ⟨rfl, fun _ => rfl, rfl, [], by simp, by simp⟩
                · dsimp only
                  rw [heights_advance, count, chain, name, next, Nat.max_eq_right (Nat.le_succ _)]
                · rw [count, scheduled_stretch (view_self _ _), stretch_cons (Nat.lt_succ_self _), stretch_eq_nil (Nat.le_refl _)]
                  dsimp only [List.map]
                  rw [here, arranged_congr same]
                  rfl
              · exact fun _ => Ends.pure fun h => by contradiction
            · exact fun _ _ => Ends.throw trivial
          · exact fun _ _ => Ends.pure fun h => by contradiction

end Core

/-- A commit along the leader's chain that returns `true` puts the blocks up in order. -/
theorem successful_commit_order (fuel : Nat) (block : Block) (list list' : List Block) (s t : State)
    (leader : s.chain.name = s.core.leader) (others : s.core.RefersToOthers) (unmixed : s.core.Unmixed)
    (returned : Core.commitPrevBlock fuel block list s = .ok (true, list') t) : CommitsInOrder block list list' s t := by
  have ends := Core.serves_commit leader others unmixed fuel block [] list s (.start s list)
  unfold Ends at ends
  rw [returned] at ends
  have serving := ends rfl
  have name : t.chain.name = s.chain.name := serving.frame.chain_eq Chain.name fun _ => rfl
  refine ⟨serving.blocks, nodup_schedule _ _, ?_, ?_⟩
  · have largest := serving.reached.largest s.chain.name
    rw [heights_self, ← name, heights_self] at largest
    rw [← name]
    exact largest
  · intro name' c other found
    have chains := serving.frame.chains name'
    rw [found] at chains
    obtain ⟨c', found', -⟩ := Option.map_eq_some_iff.mp chains
    have largest := serving.reached.largest name'
    rw [heights_stored other found, heights_stored (name ▸ other) found'] at largest
    exact ⟨c', found', largest⟩

/-! ## The conditions can be checked -/

theorem refersToOthers_of {k : Core} (each : ∀ digest ∈ QC.genesis.hash :: k.store.keys, ∀ current ∈ Synchronizer.fetch k.store digest,
    current.author = k.leader → ∀ r ∈ current.references, ∀ b ∈ Synchronizer.fetch k.store r.2,
      b.author ≠ k.leader ∧ b.author ∈ k.committee.keys) : k.RefersToOthers := by
  intro digest current fetched
  apply each digest _ current fetched
  by_cases genesis : digest = QC.genesis.hash
  · exact genesis ▸ List.mem_cons_self
  · unfold Synchronizer.fetch at fetched
    rw [if_neg genesis] at fetched
    obtain ⟨value, stored, -⟩ := Option.bind_eq_some_iff.mp fetched
    exact List.mem_cons_of_mem _ (List.mem_map_of_mem (Map.find_mem stored))

theorem unmixed_of {k : Core} (each : ∀ e ∈ k.pubkeyToChain.entries, e.1 ≠ k.leader → ∀ entry ∈ e.2.heightToDigest.entries,
    ∀ current ∈ Synchronizer.fetch k.store entry.2, current.author = k.leader → current.references = []) : k.Unmixed := by
  intro name c other found h d current entry fetched
  exact each (name, c) (Map.find_mem found) other (h, d) (Map.find_mem entry) current fetched

end

namespace Sample

theorem commitCall_of_mem {l : List Event} {call : Core × Chain × Block} (h : call ∈ commitCalls l) :
    Event.commitCall call.1 call.2.1 call.2.2 ∈ l := by
  obtain ⟨e, mem, found⟩ := List.mem_filterMap.mp h
  split at found
  · rw [← Option.some.inj found]
    exact mem
  · contradiction

/-- What a commit puts up that returns `true`. -/
def putUpBy (call : Core × Chain × Block) : Option (List Block) :=
  match Core.commitPrevBlock 20 call.2.2 [] ⟨call.1, call.2.1, [], env⟩ with
  | .ok (true, list) _ => some list
  | _ => none

theorem putUpBy_eq {call : Core × Chain × Block} {list : List Block} (h : putUpBy call = some list) :
    ∃ t, Core.commitPrevBlock 20 call.2.2 [] ⟨call.1, call.2.1, [], env⟩ = .ok (true, list) t := by
  unfold putUpBy at h
  split at h
  · rename_i exit
    rw [Option.some.inj h] at exit
    exact ⟨_, exit⟩
  · contradiction

/-- The second block of the leader goes after the two blocks of the third authority. -/
theorem referring_in_order : ∃ core chain list t, Event.commitCall core chain referring ∈ ((start 2).run certified).log ∧
    Core.commitPrevBlock 20 referring [] ⟨core, chain, [], env⟩ = .ok (true, list) t ∧
    list.reverse.map (fun b => (b.author, b.height)) = [(key 3, 1), (key 3, 2), (key 1, 2)] ∧
    CommitsInOrder referring [] list ⟨core, chain, [], env⟩ t := by
  have reached : ∃ call ∈ commitCalls ((start 2).run certified).log, call.2.2 = referring ∧ call.2.1.name = call.1.leader ∧
      (∀ digest ∈ QC.genesis.hash :: call.1.store.keys, ∀ current ∈ Synchronizer.fetch call.1.store digest,
        current.author = call.1.leader → ∀ r ∈ current.references, ∀ b ∈ Synchronizer.fetch call.1.store r.2,
          b.author ≠ call.1.leader ∧ b.author ∈ call.1.committee.keys) ∧
      (∀ e ∈ call.1.pubkeyToChain.entries, e.1 ≠ call.1.leader → ∀ entry ∈ e.2.heightToDigest.entries,
        ∀ current ∈ Synchronizer.fetch call.1.store entry.2, current.author = call.1.leader → current.references = []) ∧
      ∃ list ∈ putUpBy call, list.reverse.map (fun b => (b.author, b.height)) = [(key 3, 1), (key 3, 2), (key 1, 2)] := by
    decide +kernel
  obtain ⟨⟨core, chain, block⟩, called, rfl, leader, others, unmixed, list, put, order⟩ := reached
  obtain ⟨t, returned⟩ := putUpBy_eq put
  exact ⟨core, chain, list, t, commitCall_of_mem called, returned, order,
    successful_commit_order 20 _ [] list ⟨core, chain, [], env⟩ t leader (refersToOthers_of others) (unmixed_of unmixed) returned⟩

/-! ## A leader block on another chain -/

/-- A leader block that refers to the third authority. -/
def skipping : Block := Block.new QC.genesis (key 1) 2 0 [] [(key 3, (firstBlock 3).digest)]

/-- A block of the fourth authority on top of it. -/
def mixing : Block := Block.new (certify skipping [1, 3, 4]) (key 4) 3 0 [] []

def mixedReferring : Block := Block.new QC.genesis (key 1) 1 0 [] [(key 4, mixing.digest)]

def mixed : List Input :=
  ([firstBlock 3, next (firstBlock 3) [], firstBlock 4, next (firstBlock 4) [], skipping, mixing, next mixing [], mixedReferring,
    next mixedReferring [], next (next mixedReferring []) []]).map propose

/-- The commit goes on from the chain of the fourth authority to that of the third. -/
theorem third_authority_put_up : ∃ core chain block list t, Event.commitCall core chain block ∈ ((start 2).run mixed).log ∧
    chain.name = core.leader ∧ core.RefersToOthers ∧
    Core.commitPrevBlock 20 block [] ⟨core, chain, [], env⟩ = .ok (true, list) t ∧
    list.reverse.map (fun b => (b.author, b.height)) = [(key 4, 1), (key 3, 1), (key 1, 2), (key 4, 3), (key 1, 1)] ∧
    core.commitSchedule chain block = [(key 4, 1), (key 4, 2), (key 4, 3), (key 1, 1)] ∧
    ¬ CommitsInOrder block [] list ⟨core, chain, [], env⟩ t := by
  have reached : ∃ call ∈ commitCalls ((start 2).run mixed).log, call.2.1.name = call.1.leader ∧
      (∀ digest ∈ QC.genesis.hash :: call.1.store.keys, ∀ current ∈ Synchronizer.fetch call.1.store digest,
        current.author = call.1.leader → ∀ r ∈ current.references, ∀ b ∈ Synchronizer.fetch call.1.store r.2,
          b.author ≠ call.1.leader ∧ b.author ∈ call.1.committee.keys) ∧
      (∃ list ∈ putUpBy call,
        list.reverse.map (fun b => (b.author, b.height)) = [(key 4, 1), (key 3, 1), (key 1, 2), (key 4, 3), (key 1, 1)]) ∧
      call.1.commitSchedule call.2.1 call.2.2 = [(key 4, 1), (key 4, 2), (key 4, 3), (key 1, 1)] := by
    decide +kernel
  obtain ⟨⟨core, chain, block⟩, called, leader, others, ⟨list, put, order⟩, four⟩ := reached
  obtain ⟨t, returned⟩ := putUpBy_eq put
  refine ⟨core, chain, block, list, t, commitCall_of_mem called, leader, refersToOthers_of others, returned, order, four, ?_⟩
  intro inOrder
  obtain ⟨blocks, appended, each⟩ := inOrder.appended
  have five : list.length = 5 := by
    rw [← List.length_reverse, ← List.length_map (fun b : Block => (b.author, b.height)), order]
    rfl
  have same : blocks.length = 5 := by simpa [appended] using five
  have fewer : blocks.length = 4 := by simpa [four] using congrArg List.length each
  omega

end Sample
end HotstuffDag
