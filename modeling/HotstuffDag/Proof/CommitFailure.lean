import HotstuffDag.Proof.CommitSource
import HotstuffDag.Proof.CommitTermination

/-! # Commits that fail

An error drops the blocks that are put up, but not the heights that the walk has passed. Nothing is lost if the read
that fails comes before the first height that counts. -/

namespace HotstuffDag
open Library Library.Exec

/-! ## How far a commit gets before a height counts -/

/-- How a part of the walk ends, as long as no read fails. -/
inductive Stop
  /-- It is done, and no count that lasts has changed. -/
  | passed
  /-- A count that lasts has changed. -/
  | kept
  | stopped
  deriving DecidableEq

/-- The reads of the store until then. -/
structure Probe where
  reads : Nat
  stop : Stop

namespace Probe

def skip (n : Nat) (p : Probe) : Probe := ⟨n + p.reads, p.stop⟩

def andThen (p q : Probe) : Probe :=
  match p.stop with
  | .passed => q.skip p.reads
  | _ => p

theorem skip_andThen (n : Nat) (p q : Probe) : (p.skip n).andThen q = (p.andThen q).skip n := by
  cases ending : p.stop <;> simp [andThen, skip, ending, Nat.add_assoc]

end Probe

/-- The genesis block is not read. -/
def readsOf (digest : Digest) : Nat := if digest = QC.genesis.hash then 0 else 1

namespace Core

/-- The copy of a referenced chain counts when it is stored. -/
def probeReferences [Bincode] (k : Core) (recurse : Chain → Block → Probe) : List (PublicKey × Digest) → Probe
  | [] => ⟨0, .passed⟩
  | (_, digest) :: rest =>
      .skip (readsOf digest) <|
        match Synchronizer.fetch k.store digest with
        | none => ⟨0, .stopped⟩
        | some block =>
            match k.pubkeyToChain.get? block.author with
            | none => ⟨0, .stopped⟩
            | some target =>
                (recurse target block).andThen <|
                  if target.lastCommittedHeight ≥ block.height then k.probeReferences recurse rest else ⟨0, .kept⟩

/-- The next height of the chain, up to its count. -/
def probeHeight [Bincode] (k : Core) (recurse : Chain → Block → Probe) (c : Chain) : Probe :=
  match c.heightToDigest.get? (c.lastCommittedHeight + 1) with
  | none => ⟨0, .stopped⟩
  | some digest =>
      .skip (readsOf digest) <|
        match Synchronizer.fetch k.store digest with
        | none => ⟨0, .stopped⟩
        | some current =>
            .skip (readsOf digest) <|
              if current.author = k.leader then k.probeReferences recurse (sortReferences current.references)
              else ⟨0, .passed⟩

/-- The walk along a copy of a chain. -/
def probe [Bincode] (k : Core) : Nat → Chain → Block → Probe
  | 0, _, _ => ⟨0, .stopped⟩
  | fuel + 1, c, block =>
      if c.lastCommittedHeight ≥ block.height then ⟨0, .passed⟩
      else (k.probeHeight (k.probe fuel) c).andThen
        (k.probe fuel { c with lastCommittedHeight := c.lastCommittedHeight + 1 } block)

/-- The walk along the chain itself, whose first height counts at once. -/
def probeCommit [Bincode] (k : Core) : Nat → Chain → Block → Probe
  | 0, _, _ => ⟨0, .stopped⟩
  | fuel + 1, c, block =>
      if c.lastCommittedHeight ≥ block.height then ⟨0, .passed⟩
      else (k.probeHeight (k.probe fuel) c).andThen ⟨0, .kept⟩

end Core

/-- One of the next reads of the store fails. -/
def Fails (s : State) (n : Nat) : Prop := true ∈ s.env.failures.take n

instance (s : State) (n : Nat) : Decidable (Fails s n) := inferInstanceAs (Decidable (_ ∈ _))

/-- A read fails before a height counts, or no height comes to count. -/
def FailsEarly [Bincode] (fuel : Nat) (block : Block) (s : State) : Prop :=
  (s.core.probeCommit fuel s.chain block).stop = .kept → Fails s (s.core.probeCommit fuel s.chain block).reads

instance [Bincode] (fuel : Nat) (block : Block) (s : State) : Decidable (FailsEarly fuel block s) :=
  inferInstanceAs (Decidable (_ → _))

/-! ## Counts that last -/

/-- The chains are stored as before. -/
structure Core.Same (k k' : Core) : Prop where
  store : k'.store = k.store
  leader : k'.leader = k.leader
  chains : ∀ name, k'.pubkeyToChain.get? name = k.pubkeyToChain.get? name

/-- No stored count has gone back. -/
def Core.Above (k k' : Core) : Prop :=
  ∀ name c', k'.pubkeyToChain.get? name = some c' → ∃ c, k.pubkeyToChain.get? name = some c ∧
    c.lastCommittedHeight ≤ c'.lastCommittedHeight

/-- A stored count has changed. -/
structure Core.Moved (k k' : Core) : Prop where
  above : k.Above k'
  moved : ∃ name c c', k.pubkeyToChain.get? name = some c ∧ k'.pubkeyToChain.get? name = some c' ∧
    c.lastCommittedHeight < c'.lastCommittedHeight

namespace Core
variable {k k' : Core}

theorem Same.refl (k : Core) : k.Same k := ⟨rfl, rfl, fun _ => rfl⟩

theorem Same.above (h : k.Same k') : k.Above k' := by
  intro name c' found
  rw [h.chains] at found
  exact ⟨c', found, UInt64.le_refl _⟩

/-- A chain is stored again as it was. -/
theorem Same.insert (h : k.Same k') {name : PublicKey} {c : Chain} (found : k.pubkeyToChain.get? name = some c) :
    k.Same { k' with pubkeyToChain := k'.pubkeyToChain.insert name c } := by
  refine ⟨h.store, h.leader, fun other => ?_⟩
  dsimp only
  rw [Map.get?_insert]
  split
  · rename_i same
    rw [← same, found]
  · exact h.chains other

/-- A chain is stored with a later count. -/
theorem Above.insert (h : k.Above k') {name : PublicKey} {c c' : Chain} (found : k.pubkeyToChain.get? name = some c)
    (le : c.lastCommittedHeight ≤ c'.lastCommittedHeight) :
    k.Above { k' with pubkeyToChain := k'.pubkeyToChain.insert name c' } := by
  intro other c'' found'
  dsimp only at found'
  rw [Map.get?_insert] at found'
  split at found'
  · rename_i same
    rw [← same, ← Option.some.inj found']
    exact ⟨c, found, le⟩
  · exact h other c'' found'

theorem Above.insert_moved (h : k.Above k') {name : PublicKey} {c c' : Chain} (found : k.pubkeyToChain.get? name = some c)
    (lt : c.lastCommittedHeight < c'.lastCommittedHeight) :
    k.Moved { k' with pubkeyToChain := k'.pubkeyToChain.insert name c' } := by
  refine ⟨h.insert found (UInt64.le_of_lt lt), name, c, c', found, ?_, lt⟩
  simp

/-- What has moved stays so, if a chain is stored that has moved itself. -/
theorem Moved.insert (h : k.Moved k') {name : PublicKey} {c c' : Chain} (found : k.pubkeyToChain.get? name = some c)
    (le : c.lastCommittedHeight ≤ c'.lastCommittedHeight)
    (later : ∀ c'', k'.pubkeyToChain.get? name = some c'' → c.lastCommittedHeight < c''.lastCommittedHeight →
      c.lastCommittedHeight < c'.lastCommittedHeight) :
    k.Moved { k' with pubkeyToChain := k'.pubkeyToChain.insert name c' } := by
  obtain ⟨other, c₀, c₁, found₀, found₁, lt⟩ := h.moved
  by_cases same : name = other
  · rw [← same, found] at found₀
    obtain rfl := Option.some.inj found₀
    exact h.above.insert_moved found (later c₁ (same ▸ found₁) lt)
  · refine ⟨h.above.insert found le, other, c₀, c₁, found₀, ?_, lt⟩
    dsimp only
    rw [Map.get?_insert, if_neg same]
    exact found₁

/-! ## What lasts on every exit -/

/-- From `t` on, counts do not go back, and what has moved stays so. -/
structure Lasts (k : Core) (t t' : State) : Prop where
  above : k.Above t'.core
  moved : k.Moved t.core → k.Moved t'.core
  chain : t.chain.lastCommittedHeight ≤ t'.chain.lastCommittedHeight

theorem Lasts.refl {t : State} (above : k.Above t.core) : Lasts k t t := ⟨above, fun h => h, UInt64.le_refl _⟩

theorem Lasts.trans {t t' t'' : State} (h : Lasts k t t') (h' : Lasts k t' t'') : Lasts k t t'' :=
  ⟨h'.above, fun moved => h'.moved (h.moved moved), UInt64.le_trans h.chain h'.chain⟩

/-- A walk up to the block lasts, and if it gets there, the count does. -/
def WalkLasts (k : Core) (walk : M (Bool × List Block)) (block : Block) (t : State) : Prop :=
  Ends walk t (fun r t' => Lasts k t t' ∧ (r.1 = true → block.height ≤ t'.chain.lastCommittedHeight ∧
    (block.height ≤ t.chain.lastCommittedHeight → t' = t))) fun _ t' => Lasts k t t'

theorem lasts_references [Bincode] {recurse : Block → List Block → M (Bool × List Block)}
    (run : ∀ block list t, k.Above t.core → WalkLasts k (recurse block list) block t)
    (references : List (PublicKey × Digest)) (list : List Block) (t : State) (above : k.Above t.core) :
    Ends (commitReferences recurse references list) t (fun _ t' => Lasts k t t' ∧ t'.chain = t.chain)
      fun _ t' => Lasts k t t' ∧ t'.chain = t.chain := by
  induction references generalizing list t with
  | nil => exact Ends.pure ⟨.refl above, rfl⟩
  | cons reference rest ih =>
      have same (env : Env) (log : List Event) :
          Lasts k t { t with env := env, log := log } ∧ ({ t with env := env, log := log } : State).chain = t.chain :=
        ⟨⟨above, fun h => h, UInt64.le_refl _⟩, rfl⟩
      refine ends_getCore (ends_getBlock (fun e env => same env t.log) (fun _ env _ _ => same env t.log) (fun env block _ => ?_)
        fun env _ => Ends.pure (same env _))
      refine ends_getCore (ends_unwrap (fun _ => same env t.log) fun target found => ?_)
      obtain ⟨c, found₀, below⟩ := above _ _ found
      have back {t' : State} (h : Lasts k { t with env := env, chain := target } t') :
          Lasts k t { t' with chain := t.chain } ∧ ({ t' with chain := t.chain } : State).chain = t.chain :=
        ⟨⟨h.above, h.moved, UInt64.le_refl _⟩, rfl⟩
      refine ends_withChain (run block list { t with env := env, chain := target } above) (fun _ _ h => back h)
        fun (done, list') t' ⟨lasts, reached⟩ => ?_
      refine Ends.ite (fun finished => ?_) fun _ => Ends.pure (back lasts)
      obtain ⟨high, still⟩ := reached finished
      have le : c.lastCommittedHeight ≤ t'.chain.lastCommittedHeight := UInt64.le_trans below lasts.chain
      have stored : Lasts k t { t' with
          core := { t'.core with pubkeyToChain := t'.core.pubkeyToChain.insert block.author t'.chain }
          chain := t.chain } := by
        refine ⟨lasts.above.insert found₀ le, fun moved => (lasts.moved moved).insert found₀ le fun c' found' lt => ?_, UInt64.le_refl _⟩
        by_cases there : block.height ≤ target.lastCommittedHeight
        · rw [still there] at found' ⊢
          obtain rfl := Option.some.inj (found.symm.trans found')
          exact lt
        · exact UInt64.lt_of_le_of_lt below (UInt64.lt_of_lt_of_le (UInt64.not_le.mp there) high)
      exact Ends.weaken (ih list' _ stored.above) (fun _ _ ⟨h, chain⟩ => ⟨stored.trans h, chain⟩)
        fun _ _ ⟨h, chain⟩ => ⟨stored.trans h, chain⟩

theorem lasts_commitPrevBlock [Bincode] (fuel : Nat) (block : Block) (list : List Block) (t : State) (above : k.Above t.core) :
    WalkLasts k (commitPrevBlock fuel block list) block t := by
  induction fuel generalizing block list t with
  | zero => exact Ends.throw (.refl above)
  | succ fuel ih =>
      have same (env : Env) (log : List Event) : Lasts k t { t with env := env, log := log } :=
        ⟨above, fun h => h, UInt64.le_refl _⟩
      have stopped (env : Env) (log : List Event) : Ends (pure (false, list) : M (Bool × List Block)) { t with env := env, log := log }
          (fun r t' => Lasts k t t' ∧ (r.1 = true → block.height ≤ t'.chain.lastCommittedHeight ∧
            (block.height ≤ t.chain.lastCommittedHeight → t' = t))) fun _ t' => Lasts k t t' :=
        Ends.pure ⟨same env log, fun h => by contradiction⟩
      unfold WalkLasts commitPrevBlock
      refine ends_getChain (Ends.ite (fun reached => Ends.pure ⟨.refl above, fun _ => ⟨reached, fun _ => rfl⟩⟩) fun below => ?_)
      obtain ⟨-, next⟩ := ahead_succ below
      split
      · exact stopped t.env t.log
      · refine ends_getCore (ends_getBlock (fun e env => same env t.log) (fun _ env _ _ => same env t.log) (fun env _ _ => ?_)
          fun env _ => stopped env _)
        refine ends_getBlock (fun e env' => same env' t.log) (fun _ env' _ _ => same env' t.log) (fun env' current _ => ?_)
          fun env' _ => Ends.throw (same env' _)
        refine ends_unwrap (fun _ => same env' t.log) fun current' _ => ?_
        refine Ends.bind (Q := fun _ t' => Lasts k t t' ∧ t'.chain = t.chain) ?_ fun (done, list') t' ⟨lasts, chain⟩ => ?_
        · refine ends_getCore (Ends.ite (fun _ => ?_) fun _ => Ends.pure ⟨same env' t.log, rfl⟩)
          exact Ends.weaken (lasts_references ih _ list { t with env := env' } above) (fun _ _ h => ⟨⟨h.1.above, h.1.moved, h.1.chain⟩, h.2⟩)
            fun _ _ h => ⟨h.1.above, h.1.moved, h.1.chain⟩
        · refine Ends.ite (fun _ => ?_) fun _ => Ends.pure ⟨lasts, fun h => by contradiction⟩
          have up : t'.chain.lastCommittedHeight ≤ t'.chain.lastCommittedHeight + 1 := by
            rw [chain, UInt64.le_iff_toNat_le, next]
            exact Nat.le_succ _
          have stepped : Lasts k t { t' with chain := { t'.chain with lastCommittedHeight := t'.chain.lastCommittedHeight + 1 } } :=
            lasts.trans ⟨lasts.above, fun h => h, up⟩
          refine ends_modifyChain (Ends.weaken (ih block _ _ stepped.above) ?_ fun _ _ h => stepped.trans h)
          rintro r t'' ⟨h, reached⟩
          exact ⟨stepped.trans h, fun done => ⟨(reached done).1, fun there => absurd there below⟩⟩

end Core

/-! ## The walk shows what the probe says -/

theorem fails_add {s t : State} {m n : Nat} (rest : t.env.failures = s.env.failures.drop m) :
    Fails s (m + n) ↔ Fails s m ∨ Fails t n := by
  unfold Fails
  rw [rest, List.take_add, List.mem_append]

/-- What a part of the walk shows: `result` is whether it is done, and nothing if it fails; `S` says that no count that
lasts has changed, and `K` that one has. -/
def Probe.Shows (p : Probe) (S K : State → Prop) (s : State) (result : Option Bool) (t : State) : Prop :=
  if Fails s p.reads then result = none ∧ S t
  else match p.stop with
    | .passed => result = some true ∧ S t ∧ t.env.failures = s.env.failures.drop p.reads
    | .kept => K t
    | .stopped => result ≠ some true ∧ S t

/-- The part of the walk shows what the probe says; `done` is whether a result says so. -/
def Follows {α : Type} (p : Probe) (S K : State → Prop) (done : α → Bool) (x : M α) (s : State) : Prop :=
  Ends x s (fun a t => p.Shows S K s (some (done a)) t) fun _ t => p.Shows S K s none t

section
variable {α : Type} {done : α → Bool} {k : Core} {S K : State → Prop} {p q : Probe} {s t : State}

theorem Follows.stop {list : List Block} (same : S s) : Follows ⟨0, .stopped⟩ S K Prod.fst (pure (false, list)) s :=
  Ends.pure ⟨nofun, same⟩

theorem Follows.pass {list : List Block} (same : S s) : Follows ⟨0, .passed⟩ S K Prod.fst (pure (true, list)) s :=
  Ends.pure ⟨rfl, same, rfl⟩

theorem Follows.keep {x : M α} (h : Ends x s (fun _ t => K t) fun _ t => K t) : Follows ⟨0, .kept⟩ S K done x s := h

theorem Follows.mono {S' K' T : State → Prop} {x : M α} (h : Follows p S K done x s) (extra : Ends x s (fun _ t => T t) fun _ t => T t)
    (still : ∀ t, T t → S t → S' t) (kept : ∀ t, K t → K' t) : Follows p S' K' done x s := by
  have shown (result : Option Bool) (t : State) (h : p.Shows S K s result t) (holds : T t) : p.Shows S' K' s result t := by
    unfold Probe.Shows at *
    split at h
    · rename_i fails
      rw [if_pos fails]
      exact h.imp_right (still t holds)
    · rename_i fails
      rw [if_neg fails]
      cases ending : p.stop with
      | passed =>
          rw [ending] at h
          exact ⟨h.1, still t holds h.2.1, h.2.2⟩
      | kept =>
          rw [ending] at h
          exact kept t h
      | stopped =>
          rw [ending] at h
          exact h.imp_right (still t holds)
  exact Ends.weaken (h.and extra) (fun _ _ h => shown _ _ h.1 h.2) fun _ _ h => shown _ _ h.1 h.2

/-- After reads that do not fail. -/
theorem Probe.Shows.skip {n : Nat} {result : Option Bool} {u : State} (rest : t.env.failures = s.env.failures.drop n)
    (reads : ¬ Fails s n) (h : p.Shows S K t result u) : (p.skip n).Shows S K s result u := by
  have either := fails_add (n := p.reads) rest
  unfold Shows Probe.skip at *
  dsimp only
  by_cases fails : Fails t p.reads
  · rw [if_pos fails] at h
    rw [if_pos (either.mpr (.inr fails))]
    exact h
  · rw [if_neg fails] at h
    rw [if_neg fun all => (either.mp all).elim reads fails]
    rw [rest, List.drop_drop] at h
    exact h

theorem Probe.Shows.of_fails {n : Nat} (fails : Fails s n) (same : S t) : (p.skip n).Shows S K s none t := by
  have all : Fails s (n + p.reads) := (fails_add (t := { s with env := { s.env with failures := s.env.failures.drop n } }) rfl).mpr (.inl fails)
  unfold Shows Probe.skip
  rw [if_pos all]
  exact ⟨rfl, same⟩

theorem Follows.skip {n : Nat} {x : M α} (rest : t.env.failures = s.env.failures.drop n) (reads : ¬ Fails s n)
    (h : Follows p S K done x t) :
    Ends x t (fun a u => (p.skip n).Shows S K s (some (done a)) u) fun _ u => (p.skip n).Shows S K s none u :=
  Ends.weaken h (fun _ _ h => h.skip rest reads) fun _ _ h => h.skip rest reads

/-- The next part runs if this one is done. -/
theorem Follows.andThen {x : M α} {f : α → M (Bool × List Block)} {T : α → State → Prop} (hx : Follows p S K done x s)
    (extra : Ends x s T fun _ _ => True)
    (on : ∀ a t, done a = true → S t → T a t → Follows q S K Prod.fst (f a) t)
    (off : ∀ a t, done a = false → ∃ list, f a t = .ok (false, list) t)
    (kept : ∀ a t, K t → T a t → Ends (f a) t (fun _ u => K u) fun _ u => K u) :
    Follows (p.andThen q) S K Prod.fst (x >>= f) s := by
  unfold Follows at hx
  refine Ends.bind (Q := fun a t => p.Shows S K s (some (done a)) t ∧ T a t) (Ends.weaken (hx.and extra) (fun _ _ h => h) ?_) ?_
  · rintro e t ⟨shows, -⟩
    unfold Probe.andThen
    unfold Probe.Shows at shows
    by_cases fails : Fails s p.reads
    · rw [if_pos fails] at shows
      cases ending : p.stop with
      | passed => exact .of_fails fails shows.2
      | _ =>
          unfold Probe.Shows
          rw [if_pos fails]
          exact shows
    · rw [if_neg fails] at shows
      cases ending : p.stop with
      | passed =>
          rw [ending] at shows
          exact absurd shows.1 nofun
      | _ =>
          unfold Probe.Shows
          rw [if_neg fails]
          exact shows
  · rintro a t ⟨shows, holds⟩
    unfold Probe.andThen
    unfold Probe.Shows at shows
    by_cases fails : Fails s p.reads
    · rw [if_pos fails] at shows
      exact absurd shows.1 nofun
    · rw [if_neg fails] at shows
      cases ending : p.stop with
      | passed =>
          rw [ending] at shows
          obtain ⟨finished, same, rest⟩ := shows
          exact Follows.skip rest fails (on a t (Option.some.inj finished) same holds)
      | kept =>
          rw [ending] at shows
          have moved (u : State) (result : Option Bool) (h : K u) : p.Shows S K s result u := by
            unfold Probe.Shows
            rw [if_neg fails, ending]
            exact h
          exact Ends.weaken (kept a t shows holds) (fun r u h => moved u _ h) fun _ u h => moved u _ h
      | stopped =>
          rw [ending] at shows
          obtain ⟨unfinished, same⟩ := shows
          obtain ⟨list, run⟩ := off a t (by simpa using unfinished)
          have shown : p.Shows S K s (some false) t := by
            unfold Probe.Shows
            rw [if_neg fails, ending]
            exact ⟨nofun, same⟩
          unfold Ends
          rw [run]
          exact shown

theorem Follows.withChain {x : M α} {target : Chain}
    (h : Follows p (fun u => k.Same u.core) (fun u => k.Moved u.core) done x { s with chain := target }) :
    Follows p (fun u => k.Same u.core) (fun u => k.Moved u.core) (fun r => done r.1) (withChain target x) s := by
  unfold Follows Ends HotstuffDag.withChain at *
  cases exit : x { s with chain := target } with
  | ok a t =>
      rw [exit] at h
      exact h
  | error e t =>
      rw [exit] at h
      exact h

theorem ends_read_counted {β : Type} {Q : β → State → Prop} {E : Exn → State → Prop} {digest : Digest} {f : Option Value → M β}
    (failed : Fails s 1 → ∀ env, E (.error .storeError) { s with env := env })
    (h : ¬ Fails s 1 → ∀ env, env.failures = s.env.failures.drop 1 → Ends (f (s.core.store.get? digest)) { s with env := env } Q E) :
    Ends (Synchronizer.read digest >>= f) s Q E := by
  unfold Fails at failed h
  unfold Synchronizer.read
  rw [bind_assoc]
  cases failures : s.env.failures with
  | nil =>
      have result := h (by simp [failures]) s.env (by simp [failures])
      unfold Ends at result ⊢
      simp only [bind_eq, get_run, failures]
      exact result
  | cons fails rest =>
      cases fails with
      | true =>
          have result := failed (by simp [failures]) { s.env with failures := rest }
          unfold Ends
          simp only [bind_eq, get_run, failures]
          exact result
      | false =>
          have result := h (by simp [failures]) { s.env with failures := rest } (by simp [failures])
          unfold Ends at result ⊢
          simp only [bind_eq, get_run, failures]
          exact result

/-- A block is read. -/
theorem follows_getBlock [Bincode] {a : PublicKey} {d : Digest} {f : Option Block → M α} {g : Block → Probe}
    (store : s.core.store = k.store) (still : ∀ env log, S { s with env := env, log := log })
    (found : ∀ env b, Synchronizer.fetch k.store d = some b → Follows (g b) S K done (f (some b)) { s with env := env })
    (missing : ∀ env log, Follows ⟨0, .stopped⟩ S K done (f none) { s with env := env, log := log }) :
    Follows (.skip (readsOf d) (match Synchronizer.fetch k.store d with
      | none => ⟨0, .stopped⟩
      | some b => g b)) S K done (Synchronizer.getBlock a d none >>= f) s := by
  unfold Synchronizer.getBlock
  by_cases genesis : d = QC.genesis.hash
  · have reads : readsOf d = 0 := if_pos genesis
    have fetched : Synchronizer.fetch k.store d = some Block.genesis := if_pos genesis
    rw [if_pos genesis, fetched, reads]
    exact Follows.skip (t := s) rfl (by simp [Fails]) (found s.env Block.genesis fetched)
  · have reads : readsOf d = 1 := if_neg genesis
    rw [if_neg genesis, reads, bind_assoc]
    refine ends_read_counted (fun fails env => .of_fails fails (still env s.log)) fun clean env rest => ?_
    have fetched : Synchronizer.fetch k.store d =
        (s.core.store.get? d).bind fun value => (Synchronizer.decodeBlock value).toOption := by
      rw [store]
      exact if_neg genesis
    cases stored : s.core.store.get? d with
    | none =>
        rw [stored] at fetched
        rw [fetched]
        refine Follows.skip (t := { s with env := env }) rest clean ?_
        exact missing env _
    | some value =>
        rw [stored, Option.bind_some] at fetched
        cases decodes : Synchronizer.decodeBlock value with
        | ok b =>
            rw [decodes] at fetched
            have result := Follows.skip (t := { s with env := env }) rest clean (found env b fetched)
            have read : Synchronizer.readBlock value = pure b := by
              unfold Synchronizer.readBlock
              rw [decodes]
            simp only [fetched, read, Except.toOption, bind_assoc]
            exact result
        | error e =>
            rw [decodes] at fetched
            have read : Synchronizer.readBlock value = throw e := by
              unfold Synchronizer.readBlock
              rw [decodes]
            simp only [fetched, read, Except.toOption, bind_assoc]
            have stops : Follows ⟨0, .stopped⟩ S K done (throw e) { s with env := env } := by
              refine ⟨?_, still env s.log⟩
              intro later
              contradiction
            exact Follows.skip (t := { s with env := env }) rest clean stops

namespace Core

/-- A walk up to the block, from a state in which nothing has changed yet. -/
def Probed (k : Core) (recurse : Block → List Block → M (Bool × List Block)) (tells : Chain → Block → Probe) : Prop :=
  ∀ block list t, k.Same t.core → Follows (tells t.chain block) (fun u => k.Same u.core) (fun u => k.Moved u.core) Prod.fst (recurse block list) t

theorem follows_references [Bincode] {recurse : Block → List Block → M (Bool × List Block)} {tells : Chain → Block → Probe}
    (probed : k.Probed recurse tells) (run : ∀ block list t, k.Above t.core → WalkLasts k (recurse block list) block t)
    (references : List (PublicKey × Digest)) (list : List Block) (s : State) (same : k.Same s.core) :
    Follows (k.probeReferences tells references) (fun u => k.Same u.core) (fun u => k.Moved u.core) Prod.fst
      (commitReferences recurse references list) s := by
  induction references generalizing list s with
  | nil => exact .pass same
  | cons reference rest ih =>
      obtain ⟨_, digest⟩ := reference
      unfold probeReferences commitReferences
      refine follows_getBlock same.store (fun _ _ => same) (fun env block _ => ?_) fun _ _ => .stop same
      rw [← same.chains]
      cases found : s.core.pubkeyToChain.get? block.author with
      | none =>
          unfold Follows Ends
          simp only [bind_eq, getCore_run, found]
          refine ⟨?_, same⟩
          intro later
          contradiction
      | some target =>
          have found₀ : k.pubkeyToChain.get? block.author = some target := (same.chains _).symm.trans found
          refine ends_getCore (ends_unwrap (fun missing => ?_) fun target' again => ?_)
          · rw [found] at missing
            contradiction
          obtain rfl : target = target' := Option.some.inj (found.symm.trans again)
          have walked := run block list { s with env := env, chain := target } same.above
          -- What the walk along the target leaves when it returns.
          have extra : Ends (withChain target (recurse block list)) { s with env := env } (fun r t =>
              target.lastCommittedHeight ≤ r.2.lastCommittedHeight ∧ (r.1.1 = true →
                block.height ≤ r.2.lastCommittedHeight ∧ (block.height ≤ target.lastCommittedHeight →
                  r.2 = target ∧ t.core = s.core))) fun _ _ => True := by
            unfold WalkLasts at walked
            rw [← bind_pure (withChain target (recurse block list))]
            apply ends_withChain walked (fun _ _ _ => trivial)
            rintro r t ⟨lasts, reached⟩
            refine ⟨lasts.chain, fun finished => ?_⟩
            obtain ⟨high, still⟩ := reached finished
            refine ⟨high, fun there => ?_⟩
            rw [still there]
            exact ⟨rfl, rfl⟩
          have follows := Follows.withChain (s := { s with env := env }) (probed block list { s with env := env, chain := target } same)
          have going (list' : List Block) (t : State) (moved : k.Moved t.core) :
              Ends (commitReferences recurse rest list') t (fun _ u => k.Moved u.core) fun _ u => k.Moved u.core :=
            Ends.weaken (lasts_references run rest list' t moved.above) (fun _ _ h => h.1.moved moved) fun _ _ h => h.1.moved moved
          refine follows.andThen extra ?_ ?_ ?_
          · rintro ⟨⟨-, list'⟩, target'⟩ t rfl same' ⟨-, reached⟩
            obtain ⟨high, still⟩ := reached rfl
            by_cases there : block.height ≤ target.lastCommittedHeight
            · obtain ⟨rfl, -⟩ := still there
              rw [if_pos there]
              exact ih list' _ (same'.insert found₀)
            · rw [if_neg there]
              refine Follows.keep (going list' _ (same'.above.insert_moved found₀ ?_))
              exact UInt64.lt_of_lt_of_le (UInt64.not_le.mp there) high
          · rintro ⟨⟨-, list'⟩, target'⟩ t rfl
            exact ⟨list', rfl⟩
          · rintro ⟨⟨done, list'⟩, target'⟩ t moved ⟨le, reached⟩
            cases done with
            | false => exact Ends.pure moved
            | true =>
                obtain ⟨high, still⟩ := reached rfl
                refine going list' _ (moved.insert found₀ le fun c' found' lt => ?_)
                by_cases there : block.height ≤ target.lastCommittedHeight
                · obtain ⟨rfl, core⟩ := still there
                  rw [core, found] at found'
                  rw [← Option.some.inj found'] at lt
                  exact lt
                · exact UInt64.lt_of_lt_of_le (UInt64.not_le.mp there) high

/-- A way to tell whether a count has changed; a change shows in every later state. -/
structure Durable (k : Core) (S K : State → Prop) : Prop where
  same : ∀ t, S t → k.Same t.core
  still : ∀ t u, S t → k.Same u.core → u.chain = t.chain → S u
  above : ∀ t, K t → k.Above t.core
  lasts : ∀ t u, Lasts k t u → K t → K u
  moved : ∀ t, k.Moved t.core → K t

theorem durable_moved (k : Core) : k.Durable (fun t => k.Same t.core) fun t => k.Moved t.core :=
  ⟨fun _ h => h, fun _ _ _ h _ => h, fun _ h => h.above, fun _ _ lasts h => lasts.moved h, fun _ h => h⟩

/-- The references of a block, and the walk that goes on above it. -/
theorem follows_block [Bincode] {fuel : Nat} {tells : Chain → Block → Probe} (probed : k.Probed (commitPrevBlock fuel) tells)
    (durable : k.Durable S K)
    {block current put : Block} (list : List Block) (same : S s) (below : ¬ s.chain.lastCommittedHeight ≥ block.height)
    (next : ∀ list' t, k.Same t.core → t.chain = { s.chain with lastCommittedHeight := s.chain.lastCommittedHeight + 1 } →
      Follows q S K Prod.fst (commitPrevBlock fuel block list') t) :
    Follows ((if current.author = k.leader then k.probeReferences tells (sortReferences current.references)
        else ⟨0, .passed⟩).andThen q) S K Prod.fst (do
      let (done, list) ← commitReferencesOf (commitPrevBlock fuel) current list
      if done then
        modifyChain fun c => { c with lastCommittedHeight := c.lastCommittedHeight + 1 }
        commitPrevBlock fuel block (put :: list)
      else return (false, list)) s := by
  have run (block : Block) (list : List Block) (t : State) (above : k.Above t.core) : WalkLasts k (commitPrevBlock fuel block list) block t :=
    lasts_commitPrevBlock fuel block list t above
  have follows : Follows (if current.author = k.leader then k.probeReferences tells (sortReferences current.references)
      else ⟨0, .passed⟩) (fun u => k.Same u.core) (fun u => k.Moved u.core) Prod.fst (commitReferencesOf (commitPrevBlock fuel) current list) s := by
    unfold commitReferencesOf
    refine ends_getCore ?_
    rw [(durable.same s same).leader]
    split
    · exact follows_references probed run _ list s (durable.same s same)
    · exact Follows.pass (durable.same s same)
  have extra : Ends (commitReferencesOf (commitPrevBlock fuel) current list) s (fun _ u => u.chain = s.chain) fun _ u => u.chain = s.chain := by
    unfold commitReferencesOf
    refine ends_getCore (Ends.ite (fun _ => ?_) fun _ => Ends.pure rfl)
    exact Ends.weaken (lasts_references run _ list s (durable.same s same).above) (fun _ _ h => h.2) fun _ _ h => h.2
  have follows := follows.mono extra (fun u chain same' => durable.still s u same same' chain) durable.moved
  refine follows.andThen (Ends.weaken extra (fun _ _ h => h) fun _ _ _ => trivial) ?_ ?_ ?_
  · rintro ⟨-, list'⟩ u rfl same' chain
    refine next _ _ (durable.same u same') ?_
    dsimp only
    rw [chain]
  · rintro ⟨-, list'⟩ u rfl
    exact ⟨list', rfl⟩
  · rintro ⟨done, list'⟩ u kept chain
    cases done with
    | false => exact Ends.pure kept
    | true =>
        obtain ⟨-, up⟩ := ahead_succ below
        have stepped : Lasts k u { u with chain := { u.chain with lastCommittedHeight := u.chain.lastCommittedHeight + 1 } } := by
          refine ⟨durable.above u kept, fun h => h, ?_⟩
          dsimp only
          rw [chain, UInt64.le_iff_toNat_le, up]
          exact Nat.le_succ _
        have after := durable.lasts _ _ stepped kept
        exact Ends.weaken (run block _ _ stepped.above) (fun _ _ h => durable.lasts _ _ h.1 after) fun _ _ h => durable.lasts _ _ h after

/-- A round of the loop, and what comes after it. -/
theorem follows_height [Bincode] {fuel : Nat} {tells : Chain → Block → Probe} (probed : k.Probed (commitPrevBlock fuel) tells)
    (durable : k.Durable S K)
    {block : Block} (list : List Block) (same : S s) (below : ¬ s.chain.lastCommittedHeight ≥ block.height)
    (next : ∀ list' t, k.Same t.core → t.chain = { s.chain with lastCommittedHeight := s.chain.lastCommittedHeight + 1 } →
      Follows q S K Prod.fst (commitPrevBlock fuel block list') t) :
    Follows ((k.probeHeight tells s.chain).andThen q) S K Prod.fst (commitPrevBlock (fuel + 1) block list) s := by
  unfold commitPrevBlock
  refine ends_getChain ?_
  rw [if_neg below]
  unfold probeHeight
  cases s.chain.heightToDigest.get? (s.chain.lastCommittedHeight + 1) with
  | none => exact Follows.stop same
  | some digest =>
      have read (g : Block → Probe) : (Probe.skip (readsOf digest) (match Synchronizer.fetch k.store digest with
          | none => ⟨0, .stopped⟩
          | some b => g b)).andThen q = Probe.skip (readsOf digest) (match Synchronizer.fetch k.store digest with
          | none => ⟨0, .stopped⟩
          | some b => (g b).andThen q) := by
        rw [Probe.skip_andThen]
        cases Synchronizer.fetch k.store digest <;> rfl
      dsimp only
      rw [read]
      have quiet (env : Env) (log : List Event) : S { s with env := env, log := log } := durable.still s _ same (durable.same s same) rfl
      have store := (durable.same s same).store
      refine ends_getCore (follows_getBlock store quiet (fun env current fetched => ?_) fun env log => Follows.stop (quiet env log))
      rw [Probe.skip_andThen]
      have again := follows_getBlock (a := s.core.name) (d := digest) (s := { s with env := env })
        (f := fun option => do
          let current ← unwrap option
          let (done, list) ← commitReferencesOf (commitPrevBlock fuel) current list
          if done then
            modifyChain fun c => { c with lastCommittedHeight := c.lastCommittedHeight + 1 }
            commitPrevBlock fuel block (s.core.arranged current :: list)
          else return (false, list)) store quiet
        (fun env' current' _ => follows_block (s := { s with env := env' }) probed durable list (quiet env' s.log) below next)
        fun env' log => ⟨by intro later; contradiction, quiet env' log⟩
      rw [fetched] at again
      exact again

theorem probed_commitPrevBlock [Bincode] (k : Core) (fuel : Nat) : k.Probed (commitPrevBlock fuel) (k.probe fuel) := by
  induction fuel with
  | zero => exact fun block list t same => ⟨nofun, same⟩
  | succ fuel ih =>
      intro block list t same
      unfold probe
      by_cases reached : t.chain.lastCommittedHeight ≥ block.height
      · rw [if_pos reached]
        unfold commitPrevBlock
        refine ends_getChain ?_
        rw [if_pos reached]
        exact Follows.pass same
      · rw [if_neg reached]
        refine follows_height ih (durable_moved k) list same reached fun list' u same' chain => ?_
        rw [← chain]
        exact ih block list' u same'

/-- The chain itself counts at once. -/
def MovedAlong (k : Core) (c : Chain) (t : State) : Prop :=
  k.Above t.core ∧ (k.Moved t.core ∨ c.lastCommittedHeight < t.chain.lastCommittedHeight)

def SameAlong (k : Core) (c : Chain) (t : State) : Prop := k.Same t.core ∧ t.chain = c

theorem durable_movedAlong (k : Core) (c : Chain) : k.Durable (k.SameAlong c) (k.MovedAlong c) where
  same := fun _ h => h.1
  still := fun _ _ h same chain => ⟨same, chain.trans h.2⟩
  above := fun _ h => h.1
  lasts := fun _ _ lasts h => ⟨lasts.above, h.2.imp lasts.moved fun along => UInt64.lt_of_lt_of_le along lasts.chain⟩
  moved := fun _ h => ⟨h.above, .inl h⟩

theorem follows_commit [Bincode] (s : State) (fuel : Nat) (block : Block) (list : List Block) :
    Follows (s.core.probeCommit fuel s.chain block) (s.core.SameAlong s.chain) (s.core.MovedAlong s.chain) Prod.fst
      (commitPrevBlock fuel block list) s := by
  cases fuel with
  | zero => exact ⟨nofun, .refl _, rfl⟩
  | succ fuel =>
      rw [probeCommit]
      by_cases reached : s.chain.lastCommittedHeight ≥ block.height
      · rw [if_pos reached]
        unfold commitPrevBlock
        refine ends_getChain ?_
        rw [if_pos reached]
        exact Follows.pass ⟨.refl _, rfl⟩
      · rw [if_neg reached]
        refine follows_height (probed_commitPrevBlock s.core fuel) (durable_movedAlong s.core s.chain) list ⟨.refl _, rfl⟩ reached ?_
        intro list' t same chain
        obtain ⟨⟨above, -⟩, -⟩ := ahead_succ reached
        have along : s.core.MovedAlong s.chain t := by
          refine ⟨same.above, .inr ?_⟩
          rw [chain]
          exact above
        have durable := durable_movedAlong s.core s.chain
        exact Follows.keep (Ends.weaken (lasts_commitPrevBlock fuel block list' t same.above)
          (fun _ _ h => durable.lasts _ _ h.1 along) fun _ _ h => durable.lasts _ _ h along)

theorem commit_error [Bincode] {fuel : Nat} {block : Block} {s t : State} {e : ConsensusError}
    (failed : commit fuel block s = .error (.error e) t) :
    commitPrevBlock fuel block [] { s with log := s.log ++ [.commitCall s.core s.chain block] } = .error (.error e) t := by
  unfold commit at failed
  simp only [bind_eq, get_run, emit_run] at failed
  cases exit : commitPrevBlock fuel block [] { s with log := s.log ++ [.commitCall s.core s.chain block] } with
  | ok r u =>
      obtain ⟨log, run, -⟩ := deliver_run r.2.reverse u
      simp [exit, run] at failed
  | error e' u =>
      simp only [exit] at failed
      obtain ⟨rfl, rfl⟩ := EStateM.Result.error.inj failed
      rfl

/-- What a failed commit has changed. -/
theorem commit_error_cases [Bincode] {fuel : Nat} {block : Block} {s t : State} {e : ConsensusError}
    (failed : commit fuel block s = .error (.error e) t) :
    (FailsEarly fuel block s → s.core.SameAlong s.chain t) ∧ (¬ FailsEarly fuel block s → s.core.MovedAlong s.chain t) := by
  have shows := follows_commit { s with log := s.log ++ [.commitCall s.core s.chain block] } fuel block []
  unfold Follows Ends at shows
  rw [commit_error failed] at shows
  unfold FailsEarly
  dsimp only at shows
  unfold Probe.Shows at shows
  change if Fails s _ then _ else _ at shows
  split at shows
  · rename_i fails
    exact ⟨fun _ => shows.2, fun late => absurd (fun _ => fails) late⟩
  · rename_i clean
    cases ending : (s.core.probeCommit fuel s.chain block).stop with
    | passed =>
        rw [ending] at shows
        exact absurd shows.1 nofun
    | kept =>
        rw [ending] at shows
        exact ⟨fun early => absurd (early rfl) clean, fun _ => shows⟩
    | stopped =>
        rw [ending] at shows
        exact ⟨fun _ => shows.2, fun late => absurd (fun kept => by contradiction) late⟩

end Core

end

/-! ## What is lost -/

/-- The blocks that are sent between two states. -/
def sentSince (s s' : State) : List Block := (committed s'.log).drop (committed s.log).length

/-- Each height that the count of the chain has passed has its block sent. -/
def Delivered [Bincode] (s s' : State) (c c' : Chain) : Prop :=
  ∀ h, c.lastCommittedHeight < h → h ≤ c'.lastCommittedHeight →
    ∃ d b, c.heightToDigest.get? h = some d ∧ Fetched s.core.store d b ∧ s.core.arranged b ∈ sentSince s s'

/-- No chain, neither the one that is passed along nor a stored one, has moved past a block that is not sent. -/
structure NothingLost [Bincode] (s s' : State) : Prop where
  passed : Delivered s s' s.chain s'.chain
  stored : ∀ name c c', s.core.pubkeyToChain.get? name = some c → s'.core.pubkeyToChain.get? name = some c' → Delivered s s' c c'

theorem Delivered.still [Bincode] (s s' : State) (c : Chain) : Delivered s s' c c :=
  fun _ low high => absurd (UInt64.lt_of_lt_of_le low high) (UInt64.lt_irrefl _)

theorem not_delivered [Bincode] {s s' : State} {c c' : Chain} (silent : sentSince s s' = [])
    (lt : c.lastCommittedHeight < c'.lastCommittedHeight) : ¬ Delivered s s' c c' := by
  intro delivered
  obtain ⟨_, _, -, -, sent⟩ := delivered c'.lastCommittedHeight lt (UInt64.le_refl _)
  rw [silent] at sent
  exact List.not_mem_nil sent

/-- An error sends nothing. -/
theorem silent_of_error [Bincode] {fuel : Nat} {block : Block} {s s' : State} {e : ConsensusError}
    (failed : Core.commit fuel block s = .error (.error e) s') : sentSince s s' = [] := by
  have searched := Core.leads_commitPrevBlock_listed fuel block [] { s with log := s.log ++ [.commitCall s.core s.chain block] }
  unfold Leads at searched
  rw [Core.commit_error failed] at searched
  have same : committed s'.log = committed s.log := by
    rw [searched.committed]
    simp [committed]
  unfold sentSince
  rw [same]
  exact List.drop_length

/-- A commit that fails loses nothing if and only if a read fails before a height counts, or no height comes to count. -/
theorem failed_commit_iff [Bincode] (fuel : Nat) (block : Block) (s s' : State) (e : ConsensusError)
    (failed : Core.commit fuel block s = .error (.error e) s') : NothingLost s s' ↔ FailsEarly fuel block s := by
  obtain ⟨still, moved⟩ := Core.commit_error_cases failed
  have silent := silent_of_error failed
  constructor
  · intro nothing
    by_contra late
    rcases (moved late).2 with ⟨-, name, c, c', found, found', lt⟩ | along
    · exact not_delivered silent lt (nothing.stored name c c' found found')
    · exact not_delivered silent along nothing.passed
  · intro early
    obtain ⟨same, chain⟩ := still early
    refine ⟨?_, fun name c c' found found' => ?_⟩
    · rw [chain]
      exact .still s s' s.chain
    · rw [same.chains, found] at found'
      obtain rfl := Option.some.inj found'
      exact .still s s' c

namespace Sample

/-- The third block of the leader comes while the store does not answer, so nothing is committed yet. -/
def interrupted : Core :=
  ((start 2).run [propose (firstBlock 1), propose (next (firstBlock 1) []),
    .deliver .core (.propose (next (next (firstBlock 1) []) [])) { env with failures := [false, false, true] }]).core

/-- The state in which the second block is committed, with the reads that fail. -/
def resumed (failures : List Bool) : State :=
  ⟨interrupted, (interrupted.pubkeyToChain.get? (key 1)).getD (Chain.new (key 1)), [], { env with failures := failures }⟩

/-- The error of the commit, the height that it leaves behind and what it has sent. -/
def failure (failures : List Bool) : Option (ConsensusError × SeqNumber × List Block) :=
  match Core.commit 10 (next (firstBlock 1) []) (resumed failures) with
  | .error (.error e) s => some (e, s.chain.lastCommittedHeight, committed s.log)
  | _ => none

theorem failure_eq_some {failures : List Bool} {e : ConsensusError} {height : SeqNumber} {sent : List Block}
    (h : failure failures = some (e, height, sent)) : ∃ s, Core.commit 10 (next (firstBlock 1) []) (resumed failures) =
      .error (.error e) s ∧ s.chain.lastCommittedHeight = height := by
  unfold failure at h
  split at h
  · rename_i exit
    obtain ⟨rfl, rfl, -⟩ := Prod.mk.inj (Option.some.inj h) |>.imp_right Prod.mk.inj
    exact ⟨_, exit, rfl⟩
  · contradiction

theorem first_read_fails : ∃ s, Core.commit 10 (next (firstBlock 1) []) (resumed [true]) = .error (.error .storeError) s ∧
    NothingLost (resumed [true]) s := by
  have failed : failure [true] = some (.storeError, 0, []) := by decide +kernel
  obtain ⟨s, exit, -⟩ := failure_eq_some failed
  have early : FailsEarly 10 (next (firstBlock 1) []) (resumed [true]) := by decide +kernel
  exact ⟨s, exit, (failed_commit_iff 10 _ _ s .storeError exit).mpr early⟩

/-- The read of the second block fails when the first block is put up. -/
theorem third_read_fails : ∃ s, Core.commit 10 (next (firstBlock 1) []) (resumed [false, false, true]) =
    .error (.error .storeError) s ∧ ¬ NothingLost (resumed [false, false, true]) s := by
  have failed : failure [false, false, true] = some (.storeError, 1, []) := by decide +kernel
  have start : (resumed [false, false, true]).chain.lastCommittedHeight < 1 := by decide +kernel
  obtain ⟨s, exit, height⟩ := failure_eq_some failed
  refine ⟨s, exit, fun nothing => not_delivered (silent_of_error exit) ?_ nothing.passed⟩
  rw [height]
  exact start

end Sample
end HotstuffDag
