import HotstuffDag.Library.Replay
import HotstuffDag.Proof.CommitOrder

/-! # A commit as a replay

A safe commit on the leader's chain serves what the rules of the replicas have next, and sends the blocks in the order
in which they are served, whether it gets to its end or not. -/

namespace HotstuffDag
open Library Library.Exec Library.Replay Library.Schedule

section

theorem heights_mono {k k' : Core} {c c' : Chain} (moved : Counts (counts (view k c)) (counts (view k' c'))) (name : PublicKey) :
    heights k c name ≤ heights k' c' name := by
  unfold heights
  cases found : counts (view k c) name with
  | none => exact Nat.zero_le _
  | some n =>
      obtain ⟨n', found', le⟩ := moved name n found
      rw [found']
      exact le

/-- The rules are those that the commit of the block follows on the chain. -/
structure Guides [Bincode] (R : Rules PublicKey SeqNumber Digest) (e : SeqNumber) (k : Core) (c : Chain) (block : Block) : Prop where
  leader : R.leader e = c.name
  refers : ∀ h, Ahead c block.height h → ∀ d current, c.heightToDigest.get? h = some d →
    Synchronizer.fetch k.store d = some current → R.refers c.name h.toNat ((Core.sortReferences current.references).map Prod.snd)
  names : ∀ d b, Synchronizer.fetch k.store d = some b → R.names d b.point
  within : ∀ output, R.ends e output → block.height.toNat ≤ output

/-- From the one front to the other, what is put up has been served, and the counts agree. -/
structure Abreast (R : Rules PublicKey SeqNumber Digest) (f : Front PublicKey SeqNumber) (list : List Block) (t : State)
    (f' : Front PublicKey SeqNumber) : Prop where
  run : R.Run f f'
  epoch : f'.epoch = f.epoch
  count : f'.count = heights t.core t.chain
  sent : f'.sent = f.sent ++ list.reverse.map fun b => (R.leader f.epoch, b.point)

variable {R : Rules PublicKey SeqNumber Digest} {f f' : Front PublicKey SeqNumber} {e : SeqNumber} {list : List Block} {s t : State}
  {block : Block}

theorem Guides.walk [Bincode] (h : Guides R e s.core s.chain block) (walk : Walk s t) : Guides R e t.core t.chain block := by
  refine ⟨?_, fun x ahead d current entry fetched => ?_, fun d b fetched => ?_, h.within⟩
  · rw [walk.name]
    exact h.leader
  · rw [walk.entries] at entry
    rw [walk.store] at fetched
    rw [walk.name]
    refine h.refers x ⟨?_, ahead.2⟩ d current entry fetched
    have low := ahead.1
    have le := walk.count
    rw [UInt64.lt_iff_toNat_lt] at low ⊢
    omega
  · rw [walk.store] at fetched
    exact h.names d b fetched

namespace Abreast

theorem env (h : Abreast R f list t f') (env : Env) : Abreast R f list { t with env := env } f' := ⟨h.run, h.epoch, h.count, h.sent⟩

/-- What is due is served. -/
theorem serve (h : Abreast R f list s f') {refs : List Digest} {p : PublicKey × ℕ} {more : List Block}
    (refers : R.refers (R.following f').1 (R.following f').2 refs) (due : Due R.names f'.count (R.following f') refs p)
    (within : ∀ output, R.ends f.epoch output → (R.following f').2 ≤ output)
    (counted : heights t.core t.chain = Function.update (heights s.core s.chain) p.1 p.2)
    (points : more.reverse.map Block.point = stretch p.1 (heights s.core s.chain p.1) p.2) :
    Abreast R f (more ++ list) t (R.serve f' p) where
  run := by
    refine h.run.tail (.serve refers due fun output ends => within output ?_)
    rwa [h.epoch] at ends
  epoch := h.epoch
  count := by
    rw [counted, ← h.count]
    rfl
  sent := by
    unfold Rules.serve
    rw [List.reverse_append, List.map_append, ← List.append_assoc, ← h.sent, h.count, ← points, h.epoch, List.map_map]
    rfl

/-- A block that is referred to is served, unless its chain has got there before. -/
theorem reference (h : Abreast R f list s f') {own : PublicKey × ℕ} {refs : List Digest} {more : List Block}
    (following : R.following f' = own) (refers : R.refers own.1 own.2 refs) (within : ∀ output, R.ends f.epoch output → own.2 ≤ output)
    (due : f'.count block.author < block.height.toNat → Due R.names f'.count own refs block.point)
    (counted : heights t.core t.chain = Function.update (heights s.core s.chain) block.author
      (max (heights s.core s.chain block.author) block.height.toNat))
    (points : more.reverse.map Block.point = stretch block.author (heights s.core s.chain block.author)
      (max (heights s.core s.chain block.author) block.height.toNat)) :
    ∃ f'', Abreast R f (more ++ list) t f'' ∧ (∀ o, f'.count o ≤ f''.count o) ∧ block.height.toNat ≤ f''.count block.author := by
  subst following
  rw [← h.count] at counted points
  by_cases ahead : f'.count block.author < block.height.toNat
  · rw [Nat.max_eq_right (Nat.le_of_lt ahead)] at counted points
    refine ⟨R.serve f' block.point, ?_, fun o => ?_, ?_⟩
    · rw [h.count] at counted points
      exact h.serve refers (due ahead) within counted points
    · apply Rules.Step.count_le (R := R)
      apply Rules.Step.serve refers (due ahead)
      rw [h.epoch]
      exact within
    · exact (Function.update_self block.author block.height.toNat f'.count).ge
  · have reached := Nat.not_lt.mp ahead
    rw [Nat.max_eq_left reached] at counted points
    rw [stretch_eq_nil (Nat.le_refl _), List.map_eq_nil_iff, List.reverse_eq_nil_iff] at points
    subst points
    refine ⟨f', ⟨h.run, h.epoch, ?_, h.sent⟩, fun _ => Nat.le_refl _, reached⟩
    rw [counted, Function.update_eq_self]

end Abreast

namespace Core

/-- The loop over the references serves those that are due; `skips` says that the references before have been served. -/
theorem ends_references_front [Bincode] (fuel : Nat) {refs : List Digest} (rest : List (PublicKey × Digest)) (s : State)
    (list : List Block)
    (t : State) (f' : Front PublicKey SeqNumber) (walk : Walk s t) (own : t.chain = s.chain) (names : Names s.core)
    (leader : s.chain.name = s.core.leader) (abreast : Abreast R f list t f') (elected : R.leader f.epoch = s.chain.name)
    (named : ∀ d b, Synchronizer.fetch s.core.store d = some b → R.names d b.point)
    (safe : ∀ r ∈ rest, ∀ b, Synchronizer.fetch s.core.store r.2 = some b → SafeReference s.core s.chain b)
    (refers : R.refers s.chain.name (s.chain.lastCommittedHeight.toNat + 1) refs)
    (within : ∀ output, R.ends f.epoch output → s.chain.lastCommittedHeight.toNat + 1 ≤ output)
    (skips : ∀ count : PublicKey → ℕ, (∀ o, f'.count o ≤ count o) → ∀ p,
      Due R.names count (s.chain.name, s.chain.lastCommittedHeight.toNat + 1) (rest.map Prod.snd) p →
      Due R.names count (s.chain.name, s.chain.lastCommittedHeight.toNat + 1) refs p) :
    Ends (commitReferences (commitPrevBlock fuel) rest list) t (fun r t' => Walk s t' ∧ t'.chain = s.chain ∧
      ∃ f'', Abreast R f r.2 t' f'' ∧ (r.1 = true →
        Due R.names f''.count (s.chain.name, s.chain.lastCommittedHeight.toNat + 1) refs
          (s.chain.name, s.chain.lastCommittedHeight.toNat + 1))) fun _ t' => Walk s t' := by
  induction rest generalizing list t f' with
  | nil => exact Ends.pure ⟨walk, own, f', abreast, fun _ => skips _ (fun _ => Nat.le_refl _) _ .last⟩
  | cons reference rest ih =>
      apply ends_getCore
      apply ends_getBlock
      · exact fun _ env => walk.trans (Walk.env t env)
      · exact fun _ env _ _ => walk.trans (Walk.env t env)
      · intro env block fetched
        rw [walk.store] at fetched
        have here : Walk s { t with env := env } := walk.trans (Walk.env t env)
        apply ends_getCore
        apply ends_unwrap (fun _ => here)
        intro target found
        have safeHere := (safe reference List.mem_cons_self block fetched).walk walk
        have targetName : target.name = block.author := walk.names names _ _ found
        have other : block.author ≠ t.chain.name := safeHere.other
        have foreign : target.name ≠ t.core.leader := by
          rw [targetName, walk.leader, ← leader, ← own]
          exact other
        have walked := leads_target fuel block list { t with env := env, chain := target } foreign (safeHere.target target found)
        apply ends_withChain walked.ends
        · exact fun _ _ plain => here.trans (Walk.back plain)
        rintro ⟨done, list'⟩ t' ⟨plain, unfinished, reached, moved, le, more, rfl, points⟩
        have core : t'.core = t.core := plain.core
        have back : Walk s { t' with chain := t.chain } := here.trans (Walk.back plain)
        have low : heights t.core t.chain block.author = target.lastCommittedHeight.toNat := heights_stored other found
        apply Ends.ite
        · intro finished
          apply ends_modifyCore
          have high := reached finished
          have stored : Walk { t' with chain := t.chain } { t' with
              core := { t'.core with pubkeyToChain := t'.core.pubkeyToChain.insert block.author t'.chain }
              chain := t.chain } :=
            Walk.insert (by rw [core]; exact found) plain.frame.chain le (by rw [core]; exact moved)
          have counted : heights { t'.core with pubkeyToChain := t'.core.pubkeyToChain.insert block.author t'.chain } t.chain =
              Function.update (heights t.core t.chain) block.author t'.chain.lastCommittedHeight.toNat := by
            rw [heights_insert other, core]
          rw [high] at counted points
          rw [targetName, ← low] at points
          rw [← low] at counted
          have following : R.following f' = (s.chain.name, s.chain.lastCommittedHeight.toNat + 1) := by
            unfold Rules.following
            rw [abreast.epoch, elected, abreast.count, own, heights_self]
          have due (ahead : f'.count block.author < block.height.toNat) : Due R.names f'.count
              (s.chain.name, s.chain.lastCommittedHeight.toNat + 1) refs block.point :=
            skips _ (fun _ => Nat.le_refl _) _ (.first (named _ _ fetched) ahead)
          have next := (abreast.env env).reference (t := { t' with
              core := { t'.core with pubkeyToChain := t'.core.pubkeyToChain.insert block.author t'.chain }
              chain := t.chain }) following refers within due counted points
          obtain ⟨f'', next, grown, done⟩ := next
          apply ih (more ++ list) _ f'' (back.trans stored) own next fun r mem => safe r (List.mem_cons_of_mem _ mem)
          intro count above p due
          exact skips count (fun o => (grown o).trans (above o)) p
            (.served (named _ _ fetched) (done.trans (above _)) due)
        · intro stuck
          have same : more ++ list = list := unfinished (by simpa using stuck)
          refine Ends.pure ⟨back, own, f', ?_, fun h => by contradiction⟩
          rw [same]
          refine ⟨abreast.run, abreast.epoch, ?_, abreast.sent⟩
          rw [core]
          exact abreast.count
      · intro env _
        have here : Walk s { t with env := env, log := t.log ++ [.request t.core.name reference.2 none] } :=
          (walk.trans (Walk.env t env)).trans (Walk.request _ _ _)
        exact Ends.pure ⟨here, own, f', ⟨abreast.run, abreast.epoch, abreast.count, abreast.sent⟩, fun h => by contradiction⟩

/-- The walk along the leader's chain serves what is next. -/
theorem ends_commit_front [Bincode] (fuel : Nat) (block : Block) (s : State) (list : List Block) (t : State)
    (f' : Front PublicKey SeqNumber)
    (walk : Walk s t) (names : Names s.core) (leader : s.chain.name = s.core.leader) (safe : SafeCommit s.core s.chain block)
    (guides : Guides R f.epoch s.core s.chain block) (abreast : Abreast R f list t f') :
    Ends (commitPrevBlock fuel block list) t (fun r t' => Walk s t' ∧ ∃ f'', Abreast R f r.2 t' f'') fun _ t' => Walk s t' := by
  induction fuel generalizing list t f' with
  | zero => exact Ends.throw walk
  | succ fuel ih =>
      have stopped (env : Env) (log : List Event) (done : Bool) (here : Walk s { t with env := env, log := log }) :
          Ends (pure (done, list) : M (Bool × List Block)) { t with env := env, log := log }
            (fun r t' => Walk s t' ∧ ∃ f'', Abreast R f r.2 t' f'') fun _ t' => Walk s t' :=
        Ends.pure ⟨here, f', abreast.run, abreast.epoch, abreast.count, abreast.sent⟩
      have safeHere := safe.walk walk
      have guide := guides.walk walk
      unfold commitPrevBlock
      apply ends_getChain
      apply Ends.ite
      · exact fun _ => stopped t.env t.log true walk
      intro below
      obtain ⟨first, next⟩ := ahead_succ below
      split
      · exact stopped t.env t.log false walk
      rename_i digest entry
      apply ends_getCore
      apply ends_getBlock
      · exact fun _ env => walk.trans (Walk.env t env)
      · exact fun _ env _ _ => walk.trans (Walk.env t env)
      · intro env _ _
        apply ends_getBlock
        · exact fun _ env' => walk.trans (Walk.env t env')
        · exact fun _ env' _ _ => walk.trans (Walk.env t env')
        · intro env' current fetched
          apply ends_unwrap (fun _ => walk.trans (Walk.env t env'))
          intro current' same
          obtain rfl := Option.some.inj same
          obtain ⟨author, height⟩ := safeHere.owned _ first digest current entry (Synchronizer.fetched fetched)
          have refers := guide.refers _ first digest current entry fetched
          rw [next] at refers
          have within (output : ℕ) (ends : R.ends f.epoch output) : t.chain.lastCommittedHeight.toNat + 1 ≤ output := by
            have le := UInt64.le_iff_toNat_le.mp first.2
            rw [next] at le
            exact le.trans (guide.within output ends)
          have walked : Ends (commitReferencesOf (commitPrevBlock fuel) current list) { t with env := env' }
              (fun r t' => Walk { t with env := env' } t' ∧ t'.chain = t.chain ∧ ∃ f'', Abreast R f r.2 t' f'' ∧ (r.1 = true →
                Due R.names f''.count (t.chain.name, t.chain.lastCommittedHeight.toNat + 1)
                  ((sortReferences current.references).map Prod.snd) (t.chain.name, t.chain.lastCommittedHeight.toNat + 1)))
              fun _ t' => Walk { t with env := env' } t' := by
            unfold commitReferencesOf
            apply ends_getCore
            apply Ends.ite
            · intro elected
              apply ends_references_front (R := R) (f := f) fuel _ { t with env := env' } list _ f'
              · exact Walk.refl _
              · rfl
              · exact walk.names names
              · exact author.symm.trans elected
              · exact ⟨abreast.run, abreast.epoch, abreast.count, abreast.sent⟩
              · exact guide.leader
              · exact guide.names
              · intro r mem b fetched'
                exact safeHere.references _ first digest current entry (Synchronizer.fetched fetched) elected r
                  (mem_sortReferences.mp mem) b (Synchronizer.fetched fetched')
              · exact refers
              · exact within
              · exact fun _ _ _ due => due
            · intro other
              rw [author, walk.name, leader, ← walk.leader] at other
              exact absurd rfl other
          have along {t' : State} (h : Walk { t with env := env' } t') : Walk s t' := (walk.trans (Walk.env t env')).trans h
          refine Ends.bind (walked.weaken (fun _ _ h => h) fun _ _ h => along h) ?_
          rintro ⟨done, list'⟩ t' ⟨walk', chain, f'', put, due⟩
          apply Ends.ite
          · intro finished
            apply ends_modifyChain
            have count : f''.count t.chain.name = t.chain.lastCommittedHeight.toNat := by
              rw [put.count, chain, heights_self]
            have following : R.following f'' = (t.chain.name, t.chain.lastCommittedHeight.toNat + 1) := by
              unfold Rules.following
              rw [put.epoch, guide.leader, count]
            have counted : Walk t' { t' with chain := { t'.chain with lastCommittedHeight := t'.chain.lastCommittedHeight + 1 } } := by
              apply Walk.advance
              rw [chain, next]
              exact Nat.le_succ _
            apply ih (t.core.arranged current :: list') _ (R.serve f'' (t.chain.name, t.chain.lastCommittedHeight.toNat + 1))
              ((along walk').trans counted)
            refine put.serve (by rw [following]; exact refers) (by rw [following]; exact due finished)
              (by rw [following]; exact within) ?_ (show [t.core.arranged current].reverse.map Block.point = _ from ?_)
            · rw [heights_advance, chain, next]
            · rw [← put.count, count, stretch_cons (Nat.lt_succ_self _), stretch_eq_nil (Nat.le_refl _)]
              show [(t.core.arranged current).point] = _
              unfold Block.point
              rw [arranged_author, arranged_height, author, height, next]
          · exact fun _ => Ends.pure ⟨along walk', f'', put⟩
        · exact fun env' _ => Ends.throw ((walk.trans (Walk.env t env')).trans (Walk.request _ _ _))
      · intro env _
        exact stopped env _ false ((walk.trans (Walk.env t env)).trans (Walk.request _ _ _))

/-- A safe commit goes on with the replay, and what it sends is what is served. -/
theorem commit_front [Bincode] (fuel : Nat) (block : Block) (s : State) (names : Names s.core) (leader : s.chain.name = s.core.leader)
    (safe : SafeCommit s.core s.chain block) (guides : Guides R f.epoch s.core s.chain block)
    (count : f.count = heights s.core s.chain) :
    ∃ f', R.Run f f' ∧ f'.epoch = f.epoch ∧
      (∀ name, f'.count name ≤ heights (final (commit fuel block) s).core (final (commit fuel block) s).chain name) ∧
      ∃ blocks, committed (final (commit fuel block) s).log = committed s.log ++ blocks ∧
        f'.sent = f.sent ++ blocks.map fun b => (R.leader f.epoch, b.point) := by
  have walked := ends_commit_front fuel block { s with log := s.log ++ [.commitCall s.core s.chain block] } []
    { s with log := s.log ++ [.commitCall s.core s.chain block] } f (Walk.refl _) names leader safe guides
    ⟨.refl, rfl, count, by simp⟩
  have before : committed (s.log ++ [.commitCall s.core s.chain block]) = committed s.log := by simp [committed]
  unfold final commit
  simp only [bind_eq, get_run, emit_run]
  unfold Ends at walked
  cases exit : commitPrevBlock fuel block [] { s with log := s.log ++ [.commitCall s.core s.chain block] } with
  | ok r t =>
      rw [exit] at walked
      obtain ⟨walk, f', abreast⟩ := walked
      obtain ⟨log, run, same⟩ := deliver_run r.2.reverse t
      simp only [run, same, walk.committed, before]
      refine ⟨f', abreast.run, abreast.epoch, fun name => ?_, r.2.reverse, rfl, abreast.sent⟩
      rw [abreast.count]
  | error e t =>
      rw [exit] at walked
      simp only [walked.committed, before]
      refine ⟨f, .refl, rfl, fun name => ?_, [], (List.append_nil _).symm, (List.append_nil _).symm⟩
      rw [count]
      exact heights_mono walked.counts name

end Core
end
end HotstuffDag
