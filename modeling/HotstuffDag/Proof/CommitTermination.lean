import HotstuffDag.Library.Traversal
import HotstuffDag.Proof.CommitOnce
import Mathlib.Data.Set.Finite.List

/-! # When a commit ends

A leader block sends `commit_prev_block` to the stored chain of a block it refers to. The copy that is
walked along there may meet leader blocks again, and nothing makes these references lead downwards. -/

namespace HotstuffDag
open Library Library.Exec

section
variable [Bincode]

/-! ## The chains a walk leaves -/

/-- The entry of the chain for the height can be read as a block. -/
def ReadableAt (store : Store) (c : Chain) (h : SeqNumber) : Prop :=
  ∃ d b, c.heightToDigest.get? h = some d ∧ Synchronizer.fetch store d = some b

/-- A chain that has been walked along for a while. -/
structure Chain.Grown (store : Store) (c c' : Chain) : Prop where
  same : c'.uncommitted = c.uncommitted
  le : c.lastCommittedHeight ≤ c'.lastCommittedHeight
  readable : ∀ h, c.lastCommittedHeight < h → h ≤ c'.lastCommittedHeight → ReadableAt store c h

structure Core.Grown (k k' : Core) : Prop where
  rest : k' = { k with pubkeyToChain := k'.pubkeyToChain }
  chains : ∀ name c', k'.pubkeyToChain.get? name = some c' →
    ∃ c, k.pubkeyToChain.get? name = some c ∧ c.Grown k.store c'

theorem Chain.Grown.refl (store : Store) (c : Chain) : c.Grown store c :=
  ⟨rfl, UInt64.le_refl _, fun _ low high => absurd (UInt64.lt_of_lt_of_le low high) (UInt64.lt_irrefl _)⟩

theorem Chain.Grown.entries {store : Store} {c c' : Chain} (h : c.Grown store c') :
    c'.heightToDigest = c.heightToDigest :=
  Chain.uncommitted_eq Chain.heightToDigest (fun _ => rfl) h.same

theorem Chain.Grown.trans {store : Store} {c c' c'' : Chain} (h : c.Grown store c') (h' : c'.Grown store c'') :
    c.Grown store c'' := by
  refine ⟨h'.same.trans h.same, UInt64.le_trans h.le h'.le, fun height low high => ?_⟩
  by_cases early : height ≤ c'.lastCommittedHeight
  · exact h.readable height low early
  · obtain ⟨d, b, entry, fetched⟩ := h'.readable height (UInt64.not_le.mp early) high
    rw [h.entries] at entry
    exact ⟨d, b, entry, fetched⟩

omit [Bincode] in
theorem eq_succ {n h : SeqNumber} (next : (n + 1).toNat = n.toNat + 1) (low : n < h) (high : h ≤ n + 1) : h = n + 1 := by
  rw [UInt64.lt_iff_toNat_lt] at low
  rw [UInt64.le_iff_toNat_le] at high
  apply UInt64.toNat_inj.mp
  omega

/-- The walk goes one height further. -/
theorem Chain.Grown.next {store : Store} {c c' : Chain} (h : c.Grown store c')
    (next : (c'.lastCommittedHeight + 1).toNat = c'.lastCommittedHeight.toNat + 1)
    (readable : ReadableAt store c (c'.lastCommittedHeight + 1)) :
    c.Grown store { c' with lastCommittedHeight := c'.lastCommittedHeight + 1 } := by
  have above : c'.lastCommittedHeight < c'.lastCommittedHeight + 1 := by
    rw [UInt64.lt_iff_toNat_lt, next]
    exact Nat.lt_succ_self _
  refine h.trans ⟨rfl, UInt64.le_of_lt above, fun height low high => ?_⟩
  obtain ⟨d, b, entry, fetched⟩ := readable
  rw [eq_succ next low high]
  exact ⟨d, b, by rw [h.entries]; exact entry, fetched⟩

theorem Core.Grown.refl (k : Core) : k.Grown k := ⟨rfl, fun _ c found => ⟨c, found, .refl _ c⟩⟩

theorem Core.Grown.store {k k' : Core} (h : k.Grown k') : k'.store = k.store := by rw [h.rest]

theorem Core.Grown.leader {k k' : Core} (h : k.Grown k') : k'.leader = k.leader := by rw [h.rest]; rfl

theorem Core.Grown.insert {k k' : Core} (h : k.Grown k') {name : PublicKey} {c c' : Chain}
    (found : k.pubkeyToChain.get? name = some c) (grown : c.Grown k.store c') :
    k.Grown { k' with pubkeyToChain := k'.pubkeyToChain.insert name c' } := by
  refine ⟨by rw [h.rest], fun other c'' found' => ?_⟩
  rw [Map.get?_insert] at found'
  split at found'
  · rename_i same
    rw [← same, ← Option.some.inj found']
    exact ⟨c, found, grown⟩
  · exact h.chains other c'' found'

/-! ## What a walk seeks -/

namespace Core

/-- Where a reference leads: the stored chain of the block's author, and the height of the block. -/
def target (k : Core) (reference : PublicKey × Digest) : Option (Chain × SeqNumber) :=
  (Synchronizer.fetch k.store reference.2).bind fun b => (k.pubkeyToChain.get? b.author).map fun c => (c, b.height)

/-- What a walk along the chain seeks at one height, if there is a block to be read. -/
def seeksAt (k : Core) (c : Chain) (height : SeqNumber) : List (Option (Chain × SeqNumber)) :=
  match (c.heightToDigest.get? height).bind (Synchronizer.fetch k.store) with
  | none => [none]
  | some current => if current.author = k.leader then (sortReferences current.references).map k.target else []

def seeksBetween (k : Core) (c : Chain) (low high : ℕ) : List (Option (Chain × SeqNumber)) :=
  (List.range' (low + 1) (high - low)).flatMap fun n => k.seeksAt c (UInt64.ofNat n)

/-- What a walk along the chain up to the height seeks. -/
def seeks (k : Core) (walk : Chain × SeqNumber) : List (Option (Chain × SeqNumber)) :=
  k.seeksBetween walk.1 walk.1.lastCommittedHeight.toNat walk.2.toNat

theorem seeksBetween_append (k : Core) (c : Chain) {low mid high : ℕ} (le : low ≤ mid) (le' : mid ≤ high) :
    k.seeksBetween c low high = k.seeksBetween c low mid ++ k.seeksBetween c mid high := by
  unfold seeksBetween
  rw [← List.flatMap_append, show mid + 1 = low + 1 + 1 * (mid - low) by omega, List.range'_append,
    show mid - low + (high - mid) = high - low by omega]

theorem seeksBetween_succ (k : Core) (c : Chain) (n : ℕ) : k.seeksBetween c n (n + 1) = k.seeksAt c (UInt64.ofNat (n + 1)) := by
  simp [seeksBetween, List.range'_one]

/-- A walk that has got to the height below seeks at the next one. -/
theorem seeks_split (k : Core) {c c' : Chain} {height : SeqNumber} (le : c.lastCommittedHeight ≤ c'.lastCommittedHeight)
    (below : ¬ c'.lastCommittedHeight ≥ height) :
    k.seeks (c, height) = k.seeks (c, c'.lastCommittedHeight) ++ (k.seeksAt c (c'.lastCommittedHeight + 1) ++
      k.seeksBetween c (c'.lastCommittedHeight.toNat + 1) height.toNat) := by
  obtain ⟨-, next⟩ := ahead_succ below
  rw [UInt64.le_iff_toNat_le] at le
  rw [ge_iff_le, UInt64.le_iff_toNat_le] at below
  have position : UInt64.ofNat (c'.lastCommittedHeight.toNat + 1) = c'.lastCommittedHeight + 1 := by rw [← next, UInt64.ofNat_toNat]
  unfold seeks
  rw [← position, ← seeksBetween_succ, ← seeksBetween_append _ _ (Nat.le_succ _) (by omega), ← seeksBetween_append _ _ le (by omega)]

/-- A walk that ends below seeks less. -/
theorem seeks_subset (k : Core) {c : Chain} {low high : SeqNumber} (le : low ≤ high) : k.seeks (c, low) ⊆ k.seeks (c, high) := by
  rw [UInt64.le_iff_toNat_le] at le
  by_cases reached : c.lastCommittedHeight.toNat ≤ low.toNat
  · unfold seeks
    rw [seeksBetween_append _ _ reached le]
    exact List.subset_append_left _ _
  · unfold seeks seeksBetween
    rw [Nat.sub_eq_zero_of_le (Nat.le_of_not_le reached)]
    exact List.nil_subset _

theorem seeksAt_missing {k : Core} {c : Chain} {height : SeqNumber}
    (missing : (c.heightToDigest.get? height).bind (Synchronizer.fetch k.store) = none) : k.seeksAt c height = [none] := by
  unfold seeksAt
  rw [missing]

theorem seeksAt_leader {k : Core} {c : Chain} {height : SeqNumber} {digest : Digest} {current : Block}
    (entry : c.heightToDigest.get? height = some digest) (fetched : Synchronizer.fetch k.store digest = some current)
    (author : current.author = k.leader) : k.seeksAt c height = (sortReferences current.references).map k.target := by
  unfold seeksAt
  rw [entry, Option.bind_some, fetched]
  exact if_pos author

theorem seeksAt_other {k : Core} {c : Chain} {height : SeqNumber} {digest : Digest} {current : Block}
    (entry : c.heightToDigest.get? height = some digest) (fetched : Synchronizer.fetch k.store digest = some current)
    (author : current.author ≠ k.leader) : k.seeksAt c height = [] := by
  unfold seeksAt
  rw [entry, Option.bind_some, fetched]
  exact if_neg author

theorem target_eq {k : Core} {reference : PublicKey × Digest} {b : Block} {c : Chain}
    (fetched : Synchronizer.fetch k.store reference.2 = some b) (found : k.pubkeyToChain.get? b.author = some c) :
    k.target reference = some (c, b.height) := by
  unfold target
  rw [fetched, Option.bind_some, found]
  rfl

/-- A walk seeks stored chains only. -/
theorem mem_seeks {k : Core} {walk walk' : Chain × SeqNumber} (asked : some walk' ∈ k.seeks walk) :
    walk'.1 ∈ k.pubkeyToChain.values := by
  obtain ⟨n, -, asked⟩ := List.mem_flatMap.mp asked
  unfold seeksAt at asked
  split at asked
  · simp at asked
  · split at asked
    · obtain ⟨r, -, leads⟩ := List.mem_map.mp asked
      obtain ⟨b, -, mapped⟩ := Option.bind_eq_some_iff.mp leads
      obtain ⟨c, found, rfl⟩ := Option.map_eq_some_iff.mp mapped
      exact Map.mem_values found
    · exact absurd asked List.not_mem_nil

end Core

/-! ## What a walk leaves -/

/-- What was asked for up to where the chain has come has been searched. -/
structure Searched (k : Core) (c c' : Chain) : Prop where
  grown : c.Grown k.store c'
  ends : Traversal.Ends k.seeks (k.seeks (c, c'.lastCommittedHeight)) true

theorem Searched.refl (k : Core) (c : Chain) : Searched k c c := by
  refine ⟨.refl _ c, ?_⟩
  have nothing : k.seeks (c, c.lastCommittedHeight) = [] := by simp [Core.seeks, Core.seeksBetween]
  rw [nothing]
  exact .done

/-- The walk goes one height further. -/
theorem Searched.next {k : Core} {c c' : Chain} (h : Searched k c c')
    (next : (c'.lastCommittedHeight + 1).toNat = c'.lastCommittedHeight.toNat + 1)
    (readable : ReadableAt k.store c (c'.lastCommittedHeight + 1))
    (here : Traversal.Ends k.seeks (k.seeksAt c (c'.lastCommittedHeight + 1)) true) :
    Searched k c { c' with lastCommittedHeight := c'.lastCommittedHeight + 1 } := by
  refine ⟨h.grown.next next readable, ?_⟩
  have above : ¬ c'.lastCommittedHeight ≥ c'.lastCommittedHeight + 1 := by
    rw [ge_iff_le, UInt64.le_iff_toNat_le, next]
    omega
  rw [k.seeks_split h.grown.le above, next]
  refine h.ends.append (here.append ?_)
  simp only [Core.seeksBetween, Nat.sub_self, List.range'_zero, List.flatMap_nil]
  exact .done

/-- All stored chains have moved on by searches only. -/
structure Core.Settled (k k' : Core) : Prop where
  grown : k.Grown k'
  searched : ∀ name c c', k.pubkeyToChain.get? name = some c → k'.pubkeyToChain.get? name = some c' → Searched k c c'
  unknown : ∀ name, k'.pubkeyToChain.get? name = none → k.pubkeyToChain.get? name = none

theorem Core.Settled.refl (k : Core) : k.Settled k := by
  refine ⟨.refl k, fun name c c' found found' => ?_, fun _ => id⟩
  obtain rfl := Option.some.inj (found.symm.trans found')
  exact .refl k c

theorem Core.Settled.insert {k k' : Core} (h : k.Settled k') {name : PublicKey} {c c' : Chain}
    (found : k.pubkeyToChain.get? name = some c) (searched : Searched k c c') :
    k.Settled { k' with pubkeyToChain := k'.pubkeyToChain.insert name c' } := by
  refine ⟨h.grown.insert found searched.grown, fun other c₁ c₂ found₁ found₂ => ?_, fun other unknown => ?_⟩
  · rw [Map.get?_insert] at found₂
    split at found₂
    · rename_i same
      rw [← same, found] at found₁
      rw [← Option.some.inj found₁, ← Option.some.inj found₂]
      exact searched
    · exact h.searched other c₁ c₂ found₁ found₂
  · rw [Map.get?_insert] at unknown
    split at unknown
    · contradiction
    · exact h.unknown other unknown

/-- The environment lets no read fail from here on, if it lets none fail from there on. -/
def Env.Ready (before after : Env) : Prop := before.failures = [] → after.failures = []

/-- How a walk goes on: the traversal of what it seeks tells how it ends, unless it runs out of fuel or a read fails. -/
abbrev KeepsTo (k : Core) (t : State) (x : M (Bool × List Block)) (asked : List (Option (Chain × SeqNumber)))
    (left : State → Prop) : Prop :=
  Ends x t (fun r t' => k.Settled t'.core ∧ left t' ∧ t.env.Ready t'.env ∧ Traversal.Ends k.seeks asked r.1)
    fun e _ => t.env.failures = [] → e ≠ .outOfFuel → Traversal.Ends k.seeks asked false

theorem keepsTo_references {k : Core} {recurse : Block → List Block → M (Bool × List Block)}
    (run : ∀ b c t toCommit, k.Settled t.core → Searched k c t.chain →
      KeepsTo k t (recurse b toCommit) (k.seeks (c, b.height)) fun t' => Searched k c t'.chain)
    (references : List (PublicKey × Digest)) (toCommit : List Block) (t : State) (settled : k.Settled t.core) :
    KeepsTo k t (Core.commitReferences recurse references toCommit) (references.map k.target) fun t' => t'.chain = t.chain := by
  induction references generalizing toCommit t with
  | nil => exact Ends.pure ⟨settled, rfl, id, .done⟩
  | cons reference rest ih =>
      have unread (lost : Synchronizer.fetch k.store reference.2 = none) :
          Traversal.Ends k.seeks ((reference :: rest).map k.target) false := by
        have missing : k.target reference = none := by
          unfold Core.target
          rw [lost]
          rfl
        rw [List.map_cons, missing]
        exact .missing
      rw [← settled.grown.store] at unread
      refine ends_getBlockReady (fun lost e env ready _ => unread (lost ready)) (fun _ _ _ _ lost _ _ => unread lost)
        (fun env b same fetched => ?_) fun env same lost => Ends.pure ⟨settled, rfl, fun ready => (same ready) ▸ ready, unread lost⟩
      have fetched₀ : Synchronizer.fetch k.store reference.2 = some b := by rw [← settled.grown.store, fetched]
      refine ends_unwrap (fun unknown _ _ => ?_) fun target found => ?_
      · have missing : k.target reference = none := by
          unfold Core.target
          rw [fetched₀, Option.bind_some, settled.unknown _ unknown]
          rfl
        rw [List.map_cons, missing]
        exact .missing
      obtain ⟨c, found₀, -⟩ := settled.grown.chains _ _ found
      have searched := settled.searched _ c target found₀ found
      rw [List.map_cons, Core.target_eq fetched₀ found₀]
      refine ends_withChain (run b c _ toCommit settled searched) (fun e t' failed ready fuel => ?_) fun (done, list) t' followed => ?_
      · exact .stuck (failed (by rw [same ready]; exact ready) fuel)
      obtain ⟨settled', searched', kept, ends⟩ := followed
      refine Ends.ite (fun finished => ?_) fun unfinished => Ends.pure ⟨settled', rfl, fun ready => kept (by rw [same ready]; exact ready), ?_⟩
      · obtain rfl : done = true := finished
        refine Ends.weaken (ih list _ (settled'.insert found₀ searched')) ?_ fun e t'' failed ready fuel => ?_
        · rintro r t'' ⟨settled'', chain, kept', later⟩
          exact ⟨settled'', chain, fun ready => kept' (kept (by rw [same ready]; exact ready)), .next ends later⟩
        · exact .next ends (failed (kept (by rw [same ready]; exact ready)) fuel)
      · obtain rfl : done = false := Bool.eq_false_iff.mpr unfinished
        exact .stuck ends

theorem keepsTo_commitPrevBlock {k : Core} (fuel : Nat) (b : Block) (c : Chain) (t : State) (toCommit : List Block)
    (settled : k.Settled t.core) (searched : Searched k c t.chain) :
    KeepsTo k t (Core.commitPrevBlock fuel b toCommit) (k.seeks (c, b.height)) fun t' => Searched k c t'.chain := by
  induction fuel generalizing b c t toCommit with
  | zero => exact Ends.throw fun _ fuel => absurd rfl fuel
  | succ fuel ih =>
      unfold Core.commitPrevBlock
      refine ends_getChain (Ends.ite (fun reached => ?_) fun below => ?_)
      · exact Ends.pure ⟨settled, searched, id, searched.ends.of_subset (k.seeks_subset reached)⟩
      obtain ⟨-, next⟩ := ahead_succ below
      have split := k.seeks_split searched.grown.le below
      have stops (here : Traversal.Ends k.seeks (k.seeksAt c (t.chain.lastCommittedHeight + 1)) false) :
          Traversal.Ends k.seeks (k.seeks (c, b.height)) false := by
        rw [split]
        exact searched.ends.append here.append_false
      have unread (missing : (c.heightToDigest.get? (t.chain.lastCommittedHeight + 1)).bind (Synchronizer.fetch k.store) = none) :
          Traversal.Ends k.seeks (k.seeks (c, b.height)) false :=
        stops (Core.seeksAt_missing missing ▸ .missing)
      split
      · rename_i absent
        rw [searched.grown.entries] at absent
        exact Ends.pure ⟨settled, searched, id, unread (by rw [absent]; rfl)⟩
      · rename_i digest entry
        rw [searched.grown.entries] at entry
        have lost (h : Synchronizer.fetch t.core.store digest = none) : Traversal.Ends k.seeks (k.seeks (c, b.height)) false := by
          rw [settled.grown.store] at h
          exact unread (by rw [entry, Option.bind_some, h])
        refine ends_getCore (ends_getBlockReady (fun h e env ready _ => lost (h ready)) (fun _ _ _ _ h _ _ => lost h)
          (fun env _ same _ => ?_) fun env same h => Ends.pure ⟨settled, searched, fun ready => same ready ▸ ready, lost h⟩)
        have kept : t.env.Ready env := fun ready => same ready ▸ ready
        refine ends_getBlockReady (fun h e env' ready _ => lost (h (kept ready))) (fun _ _ _ _ h _ _ => lost h)
          (fun env' current same' fetched => ?_) fun env' same' h => Ends.throw fun _ _ => lost h
        have kept' : t.env.Ready env' := fun ready => same' (kept ready) ▸ kept ready
        rw [settled.grown.store] at fetched
        refine ends_unwrap (fun h => by contradiction) fun current' same'' => ?_
        obtain rfl := Option.some.inj same''
        refine Ends.bind (Q := fun r t' => k.Settled t'.core ∧ t'.chain = t.chain ∧ t.env.Ready t'.env ∧
          Traversal.Ends k.seeks (k.seeksAt c (t.chain.lastCommittedHeight + 1)) r.1) ?_ fun (done, list) t' followed => ?_
        · refine ends_getCore (Ends.ite (fun author => ?_) fun foreign => ?_)
          · rw [settled.grown.leader] at author
            rw [Core.seeksAt_leader entry fetched author]
            refine Ends.weaken (keepsTo_references (fun b c t toCommit => ih b c t toCommit) _ toCommit _ settled) ?_ ?_
            · rintro r t' ⟨settled', chain, ready, ends⟩
              exact ⟨settled', chain, fun h => ready (kept' h), ends⟩
            · intro e t' failed ready fuel
              refine stops ?_
              rw [Core.seeksAt_leader entry fetched author]
              exact failed (kept' ready) fuel
          · rw [settled.grown.leader] at foreign
            refine Ends.pure ⟨settled, rfl, kept', ?_⟩
            rw [Core.seeksAt_other entry fetched foreign]
            exact .done
        · obtain ⟨settled', chain, ready, here⟩ := followed
          have searchedStill : Searched k c t'.chain := by
            rw [chain]
            exact searched
          refine Ends.ite (fun finished => ?_) fun unfinished => Ends.pure ⟨settled', searchedStill, ready, ?_⟩
          · obtain rfl : done = true := finished
            have searched' := searched.next next ⟨digest, current, entry, fetched⟩ here
            rw [← chain] at searched'
            refine ends_modifyChain (Ends.weaken (ih b c _ _ settled' searched') ?_ ?_)
            · rintro r t'' ⟨settled'', searched'', ready', ends⟩
              exact ⟨settled'', searched'', fun h => ready' (ready h), ends⟩
            · exact fun e t'' failed h fuel => failed (ready h) fuel
          · obtain rfl : done = false := Bool.eq_false_iff.mpr unfinished
            exact stops here

/-! ## How far a walk goes -/

/-- The program ends without running out of fuel. -/
abbrev Halts {α : Type} (x : M α) (s : State) : Prop := Ends x s (fun _ _ => True) fun e _ => e ≠ .outOfFuel

/-- The amount of fuel is enough for the walk, wherever the commit stands. -/
def Enough (k : Core) (n : ℕ) (walk : Chain × SeqNumber) : Prop :=
  ∀ t b toCommit fuel, n ≤ fuel → b.height = walk.2 → k.Settled t.core → Searched k walk.1 t.chain →
    Halts (Core.commitPrevBlock fuel b toCommit) t

theorem Enough.mono {k : Core} {n n' : ℕ} {walk : Chain × SeqNumber} (le : n ≤ n') (h : Enough k n walk) : Enough k n' walk :=
  fun t b toCommit fuel enough => h t b toCommit fuel (le.trans enough)

/-- What is enough for the walks that are asked for, each after those before it, is enough for the references. -/
theorem halts_references {k : Core} {n fuel : ℕ} (enough : n ≤ fuel) (references : List (PublicKey × Digest))
    (toCommit : List Block) (t : State) (settled : k.Settled t.core)
    (within : ∀ before walk after, references.map k.target = before ++ some walk :: after → Traversal.Ends k.seeks before true →
      Enough k n walk) : Halts (Core.commitReferences (Core.commitPrevBlock fuel) references toCommit) t := by
  induction references generalizing toCommit t with
  | nil => exact Ends.pure trivial
  | cons reference rest ih =>
      refine ends_getBlock (fun e env => by simp) (fun _ _ _ _ => by simp) (fun env b fetched => ?_) fun env _ => Ends.pure trivial
      rw [settled.grown.store] at fetched
      refine ends_unwrap (fun _ => by simp) fun target found => ?_
      obtain ⟨c, found₀, -⟩ := settled.grown.chains _ _ found
      have searched := settled.searched _ c target found₀ found
      have leads := Core.target_eq fetched found₀
      have first : Enough k n (c, b.height) := within [] (c, b.height) (rest.map k.target) (by rw [List.map_cons, leads]; rfl) .done
      have follows := keepsTo_commitPrevBlock fuel b c { t with env := env, chain := target } toCommit settled searched
      have halts : Halts (Core.commitPrevBlock fuel b toCommit) { t with env := env, chain := target } :=
        first _ b toCommit fuel enough rfl settled searched
      refine ends_withChain (Ends.and halts follows) (fun _ _ h => h.1) fun (done, list) t' ends => ?_
      obtain ⟨-, settled', searched', -, ended⟩ := ends
      refine Ends.ite (fun finished => ?_) fun _ => Ends.pure trivial
      obtain rfl : done = true := finished
      refine ih list _ (settled'.insert found₀ searched') fun before walk after split ends => ?_
      refine within (some (c, b.height) :: before) walk after ?_ (.next ended ends)
      rw [List.map_cons, leads, split]
      rfl

theorem enough_succ {k : Core} {n : ℕ} {c : Chain} {height : SeqNumber}
    (within : ∀ before walk after, k.seeks (c, height) = before ++ some walk :: after → Traversal.Ends k.seeks before true →
      Enough k n walk) : Enough k (n + height.toNat + 1) (c, height) := by
  suffices along : ∀ left t b toCommit fuel, n + left + 1 ≤ fuel → b.height = height → k.Settled t.core → Searched k c t.chain →
      height.toNat - t.chain.lastCommittedHeight.toNat ≤ left → Halts (Core.commitPrevBlock fuel b toCommit) t by
    intro t b toCommit fuel enough same settled searched
    exact along height.toNat t b toCommit fuel enough same settled searched (Nat.sub_le _ _)
  intro left
  induction left with
  | zero =>
      intro t b toCommit fuel enough same settled searched remaining
      obtain ⟨fuel, rfl⟩ := Nat.exists_eq_add_of_le' (le_trans (Nat.le_add_left 1 _) enough)
      have done : t.chain.lastCommittedHeight ≥ b.height := by
        rw [ge_iff_le, UInt64.le_iff_toNat_le, same]
        omega
      unfold Core.commitPrevBlock
      refine ends_getChain ?_
      rw [if_pos done]
      exact Ends.pure trivial
  | succ left ih =>
      intro t b toCommit fuel enough same settled searched remaining
      obtain ⟨fuel, rfl⟩ := Nat.exists_eq_add_of_le' (le_trans (Nat.le_add_left 1 _) enough)
      unfold Core.commitPrevBlock
      refine ends_getChain (Ends.ite (fun _ => Ends.pure trivial) fun below => ?_)
      obtain ⟨-, next⟩ := ahead_succ below
      have split := k.seeks_split searched.grown.le below
      split
      · exact Ends.pure trivial
      · rename_i digest entry
        rw [searched.grown.entries] at entry
        refine ends_getCore (ends_getBlock (fun e env => by simp) (fun _ _ _ _ => by simp) (fun env _ _ => ?_) fun env _ => Ends.pure trivial)
        refine ends_getBlock (fun e env => by simp) (fun _ _ _ _ => by simp) (fun env current fetched => ?_) fun env _ => Ends.throw (by simp)
        rw [settled.grown.store] at fetched
        refine ends_unwrap (fun _ => by simp) fun current' same' => ?_
        obtain rfl := Option.some.inj same'
        refine Ends.bind (Q := fun r t' => k.Settled t'.core ∧ t'.chain = t.chain ∧
          Traversal.Ends k.seeks (k.seeksAt c (t.chain.lastCommittedHeight + 1)) r.1) ?_ fun (done, list) t' followed => ?_
        · refine ends_getCore (Ends.ite (fun author => ?_) fun foreign => ?_)
          · rw [settled.grown.leader] at author
            have asked := Core.seeksAt_leader entry fetched author
            have follows := keepsTo_references (fun b c t toCommit => keepsTo_commitPrevBlock fuel b c t toCommit)
              (Core.sortReferences current.references) toCommit { t with env := env } settled
            refine Ends.weaken (Ends.and (halts_references (n := n) (by omega) _ toCommit _ settled ?_) follows) ?_ fun _ _ h => h.1
            · intro before walk after here ends
              refine within (k.seeks (c, t.chain.lastCommittedHeight) ++ before) walk
                (after ++ k.seeksBetween c (t.chain.lastCommittedHeight.toNat + 1) height.toNat) ?_ (searched.ends.append ends)
              rw [← same, split, asked, here]
              simp
            · rintro r t' ⟨-, settled', chain, -, ends⟩
              exact ⟨settled', chain, asked ▸ ends⟩
          · rw [settled.grown.leader] at foreign
            refine Ends.pure ⟨settled, rfl, ?_⟩
            rw [Core.seeksAt_other entry fetched foreign]
            exact .done
        · obtain ⟨settled', chain, here⟩ := followed
          refine Ends.ite (fun finished => ?_) fun _ => Ends.pure trivial
          obtain rfl : done = true := finished
          have searched' := searched.next next ⟨digest, current, entry, fetched⟩ here
          rw [← chain] at searched'
          refine ends_modifyChain (ih _ b _ fuel (by omega) same settled' searched' ?_)
          rw [chain, next]
          omega

/-! ## The theorem -/

/-- Some amount of fuel is enough for the walk. -/
def Terminates (s : State) (block : Block) (toCommit : List Block) : Prop :=
  ∃ n, ∀ fuel, n ≤ fuel → ∀ t, Core.commitPrevBlock fuel block toCommit s ≠ .error .outOfFuel t

instance : Finite SeqNumber := Finite.of_injective UInt64.toFin fun _ _ same => UInt64.toFin_inj.mp same

theorem traversal_ends_iff (k : Core) (c : Chain) (height : SeqNumber) :
    (∃ r, Traversal.Ends k.seeks (k.seeks (c, height)) r) ↔ ¬ Traversal.GoesRound k.seeks (c, height) := by
  have finite : {walk : Chain × SeqNumber | walk.1 ∈ c :: k.pubkeyToChain.values}.Finite := by
    have chains := (List.finite_toSet (c :: k.pubkeyToChain.values)).prod (Set.finite_univ (α := SeqNumber))
    exact chains.subset fun walk known => ⟨known, trivial⟩
  exact Traversal.ends_iff finite List.mem_cons_self fun _ _ _ asked => List.mem_cons_of_mem _ (Core.mem_seeks asked)

/-- A walk that goes round does not end where all reads succeed. -/
theorem not_terminates {k : Core} {c : Chain} {block : Block} (round : Traversal.GoesRound k.seeks (c, block.height))
    (toCommit : List Block) (log : List Event) {env : Env} (ready : env.failures = []) :
    ¬ Terminates ⟨k, c, log, env⟩ block toCommit := by
  rintro ⟨n, ends⟩
  have follows := keepsTo_commitPrevBlock n block c ⟨k, c, log, env⟩ toCommit (.refl k) (.refl k c)
  unfold KeepsTo Ends at follows
  refine (traversal_ends_iff k c block.height).mp ?_ round
  cases exit : Core.commitPrevBlock n block toCommit ⟨k, c, log, env⟩ with
  | ok r t =>
      rw [exit] at follows
      exact ⟨r.1, follows.2.2.2⟩
  | error e t =>
      rw [exit] at follows
      refine ⟨false, follows ready ?_⟩
      rintro rfl
      exact ends n (Nat.le_refl n) t exit

/-- A commit ends, whatever the reads answer, unless the references that it is sent along lead round: references that come after
one from which something missing is reached do not count. -/
theorem commit_terminates (k : Core) (c : Chain) (block : Block) :
    (∀ toCommit log env, Terminates ⟨k, c, log, env⟩ block toCommit) ↔ ¬ Traversal.GoesRound k.seeks (c, block.height) := by
  constructor
  · intro ends round
    exact not_terminates round [] [] (show (⟨0, [], .accept, []⟩ : Env).failures = [] from rfl) (ends [] [] _)
  · intro straight toCommit log env
    obtain ⟨r, ends⟩ := (traversal_ends_iff k c block.height).mpr straight
    have bound := ends.bound (P := Enough k) Enough.mono fun walk n within => ⟨_, enough_succ within⟩
    obtain ⟨n, within⟩ := bound
    refine ⟨n + block.height.toNat + 1, fun fuel le t exhausted => ?_⟩
    have halts := enough_succ within ⟨k, c, log, env⟩ block toCommit fuel le rfl (.refl k) (.refl k c)
    unfold Halts Ends at halts
    rw [exhausted] at halts
    exact halts rfl

end

namespace Sample

/-- A block of the leader that nothing refers to but the next one. -/
def ahead : Block := Block.new QC.genesis (key 1) 5 0 [] []

/-- The first block of the leader refers to a block of its own chain. -/
def backward : Block := Block.new QC.genesis (key 1) 1 0 [] [(key 1, ahead.digest)]

/-- The second node has stored the blocks of the leader and has got the certificate of the one that refers. -/
def holding (referring : Block) : Core :=
  ((start 2).run [propose ahead, propose referring, propose (Block.new (certify referring [1, 3, 4]) (key 1) 2 0 [] [])]).core

def leaderChain (k : Core) : Chain := (k.pubkeyToChain.get? (key 1)).getD (Chain.new (key 1))

theorem endless_commit : ¬ ∀ (s : State) (block : Block) (toCommit : List Block), Terminates s block toCommit := by
  intro all
  have first : (holding backward).seeks (leaderChain (holding backward), 1) = [some (leaderChain (holding backward), 5)] := by
    decide +kernel
  have again : (holding backward).seeks (leaderChain (holding backward), 5) = some (leaderChain (holding backward), 5) ::
      ((holding backward).seeks (leaderChain (holding backward), 5)).tail := by
    decide +kernel
  have round : Traversal.GoesRound (holding backward).seeks (leaderChain (holding backward), backward.height) :=
    ⟨_, .single (Traversal.Clear.first first), .single (Traversal.Clear.first again)⟩
  exact not_terminates round [] [] rfl (all ⟨holding backward, leaderChain (holding backward), [], env⟩ backward [])

/-- The reference that leads round comes after one to a block that nobody has. -/
def detained : Block := Block.new QC.genesis (key 1) 1 0 [] [(key 1, ⟨0⟩), (key 1, ahead.digest)]

/-- The second node before it commits the block of the leader that refers to the third author. -/
def beforeCommit : Core :=
  ((start 2).run ([firstBlock 3, next (firstBlock 3) [], firstBlock 1, referring, next referring []].map propose)).core

theorem referring_terminates :
    (∀ toCommit log env, Terminates ⟨beforeCommit, leaderChain beforeCommit, log, env⟩ referring toCommit) ∧
      ∀ toCommit log env, Terminates ⟨holding detained, leaderChain (holding detained), log, env⟩ detained toCommit := by
  constructor
  · have asked : ((beforeCommit.seeks (leaderChain beforeCommit, 2)).map fun x => x.map beforeCommit.seeks) = [some [none]] := by
      decide +kernel
    refine (commit_terminates beforeCommit (leaderChain beforeCommit) referring).mpr fun round => ?_
    obtain ⟨walk, first, round⟩ := round.step
    obtain ⟨further, second, -⟩ := round.step
    have nothing := List.mem_map_of_mem (f := fun x => x.map beforeCommit.seeks) first.asked
    rw [show referring.height = 2 by decide +kernel, asked] at nothing
    exact second.ne_missing (Option.some.inj (List.mem_singleton.mp nothing))
  · have asked : (holding detained).seeks (leaderChain (holding detained), 1) = [none, some (leaderChain (holding detained), 5)] := by
      decide +kernel
    refine (commit_terminates (holding detained) (leaderChain (holding detained)) detained).mpr fun round => ?_
    obtain ⟨walk, first, -⟩ := round.step
    exact first.ne_missing asked

end Sample
end HotstuffDag
