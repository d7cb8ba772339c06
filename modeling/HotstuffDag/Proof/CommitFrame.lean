import HotstuffDag.Proof.Rules

/-! # What a commit leaves alone

Whatever `commit` does and however it ends, of the chains only the last committed heights change,
and of the core nothing else. -/

namespace HotstuffDag
open Library Library.Exec

/-- A chain without its last committed height. -/
def Chain.uncommitted (c : Chain) : Chain := { c with lastCommittedHeight := 0 }

theorem Chain.uncommitted_eq {α : Type} {c c' : Chain} (f : Chain → α) (blind : ∀ c : Chain, f c.uncommitted = f c)
    (same : c'.uncommitted = c.uncommitted) : f c' = f c := by
  rw [← blind, same, blind]

def Event.ofCommit : Event → Prop
  | .request _ _ none | .mempool _ | .commit _ | .commitCall _ _ _ => True
  | _ => False

structure CommitFrame (s s' : State) : Prop where
  core : s'.core = { s.core with pubkeyToChain := s'.core.pubkeyToChain }
  chains : ∀ name, (s'.core.pubkeyToChain.get? name).map Chain.uncommitted =
    (s.core.pubkeyToChain.get? name).map Chain.uncommitted
  chain : s'.chain.uncommitted = s.chain.uncommitted
  log : ∃ more, s'.log = s.log ++ more ∧ ∀ e ∈ more, e.ofCommit

namespace CommitFrame

theorem refl (s : State) : CommitFrame s s := ⟨rfl, fun _ => rfl, rfl, [], by simp, by simp⟩

theorem trans {s s' s'' : State} (h : CommitFrame s s') (h' : CommitFrame s' s'') : CommitFrame s s'' := by
  obtain ⟨more, log, each⟩ := h.log
  obtain ⟨more', log', each'⟩ := h'.log
  refine ⟨?_, fun name => (h'.chains name).trans (h.chains name), h'.chain.trans h.chain,
    more ++ more', by rw [log', log, List.append_assoc], ?_⟩
  · rw [h'.core, h.core]
  · intro e he
    rcases List.mem_append.mp he with he | he
    · exact each e he
    · exact each' e he

instance : Std.Refl CommitFrame := ⟨refl⟩

instance : IsTrans State CommitFrame := ⟨fun _ _ _ h h' => h.trans h'⟩

theorem env (s : State) (env : Env) : CommitFrame s { s with env := env } :=
  ⟨rfl, fun _ => rfl, rfl, [], by simp, by simp⟩

theorem emit {s : State} {e : Event} (h : e.ofCommit) : CommitFrame s { s with log := s.log ++ [e] } :=
  ⟨rfl, fun _ => rfl, rfl, [e], rfl, by simpa using h⟩

/-- The run on a referenced chain, seen from the chain that refers to it. -/
theorem back {s t : State} {target : Chain} (h : CommitFrame { s with chain := target } t) :
    CommitFrame s { t with chain := s.chain } :=
  ⟨h.core, h.chains, rfl, h.log⟩

theorem stored {s : State} {name : PublicKey} {target : Chain}
    (found : (s.core.pubkeyToChain.get? name).map Chain.uncommitted = some target.uncommitted) :
    CommitFrame s { s with core := { s.core with
      pubkeyToChain := s.core.pubkeyToChain.insert name target } } := by
  refine ⟨rfl, fun other => ?_, rfl, [], by simp, by simp⟩
  dsimp only
  rw [Map.get?_insert]
  split
  · rename_i same
    rw [← same, found]
    rfl
  · rfl

theorem core_eq {s s' : State} (h : CommitFrame s s') {α : Type} (f : Core → α)
    (blind : ∀ k m, f { k with pubkeyToChain := m } = f k) : f s'.core = f s.core := by
  rw [h.core]
  exact blind _ _

theorem chain_eq {s s' : State} (h : CommitFrame s s') {α : Type} (f : Chain → α)
    (blind : ∀ c : Chain, f c.uncommitted = f c) : f s'.chain = f s.chain :=
  Chain.uncommitted_eq f blind h.chain

end CommitFrame

namespace Core

theorem mem_sortReferences {references : List (PublicKey × Digest)} {p : PublicKey × Digest} :
    p ∈ sortReferences references ↔ p ∈ references :=
  List.mem_insertionSort _

@[simp] theorem arranged_author (k : Core) (b : Block) : (k.arranged b).author = b.author := by
  unfold arranged
  split <;> rfl

@[simp] theorem arranged_height (k : Core) (b : Block) : (k.arranged b).height = b.height := by
  unfold arranged
  split <;> rfl

@[simp] theorem arranged_epoch (k : Core) (b : Block) : (k.arranged b).epoch = b.epoch := by
  unfold arranged
  split <;> rfl

@[simp] theorem arranged_qc (k : Core) (b : Block) : (k.arranged b).qc = b.qc := by
  unfold arranged
  split <;> rfl

@[simp] theorem arranged_payload (k : Core) (b : Block) : (k.arranged b).payload = b.payload := by
  unfold arranged
  split <;> rfl

/-- What is put up depends on the core by its leader only. -/
theorem arranged_congr {k k' : Core} (leader : k'.leader = k.leader) (b : Block) : k'.arranged b = k.arranged b := by
  unfold arranged
  rw [leader]

theorem leads_getBlock_frame [Bincode] {β : Type} {s : State} {Q : β → State → Prop} {author : PublicKey}
    {digest : Digest} {f : Option Block → M β}
    (h : ∀ option t, CommitFrame s t → Leads CommitFrame (f option) t Q) :
    Leads CommitFrame (Synchronizer.getBlock author digest none >>= f) s Q := by
  refine leads_getBlock CommitFrame.env (fun env _ _ => CommitFrame.emit trivial) ?_ ?_
  · exact fun env b _ => h _ _ (CommitFrame.env s env)
  · exact fun env _ _ => h _ _ ((CommitFrame.env s env).trans (CommitFrame.emit trivial))

theorem leads_withChain {β γ : Type} {s : State} {Q : β → State → Prop} {target : Chain} {x : M γ}
    {f : γ × Chain → M β} (run : ∀ t, Leads CommitFrame x t (fun _ _ => True))
    (h : ∀ a target' t, CommitFrame s t → target'.uncommitted = target.uncommitted →
      Leads CommitFrame (f (a, target')) t Q) :
    Leads CommitFrame (withChain target x >>= f) s Q := by
  have followed := run { s with chain := target }
  unfold Leads at followed ⊢
  rw [bind_eq]
  unfold withChain
  cases exit : x { s with chain := target } with
  | ok a t =>
      rw [exit] at followed
      have back := followed.1.back
      exact (h a t.chain _ back followed.1.chain).after back
  | error e t =>
      rw [exit] at followed
      exact followed.back

theorem leads_commitReferences [Bincode] {recurse : Block → List Block → M (Bool × List Block)}
    (run : ∀ block toCommit t, Leads CommitFrame (recurse block toCommit) t (fun _ _ => True))
    (references : List (PublicKey × Digest)) (toCommit : List Block) (s : State) :
    Leads CommitFrame (commitReferences recurse references toCommit) s (fun _ _ => True) := by
  induction references generalizing toCommit s with
  | nil => exact Leads.pure trivial
  | cons reference rest ih =>
      refine leads_getCore (leads_getBlock_frame fun option t frame => ?_)
      cases option with
      | none => exact Leads.pure trivial
      | some block =>
          refine leads_getCore (leads_unwrap fun target found => ?_)
          refine leads_withChain (run block toCommit) fun (done, toCommit') target' t' frame' same => ?_
          refine Leads.ite (fun _ => ?_) fun _ => Leads.pure trivial
          refine leads_modifyCore (CommitFrame.stored ?_) (ih _ _)
          rw [frame'.chains, found, same]
          rfl

theorem leads_commitPrevBlock [Bincode] (fuel : Nat) (block : Block) (toCommit : List Block) (s : State) :
    Leads CommitFrame (commitPrevBlock fuel block toCommit) s (fun _ _ => True) := by
  induction fuel generalizing block toCommit s with
  | zero => exact Leads.throw
  | succ fuel ih =>
      unfold commitPrevBlock
      refine leads_getChain ?_
      refine Leads.ite (fun _ => Leads.pure trivial) fun _ => ?_
      split
      · exact Leads.pure trivial
      · refine leads_getCore (leads_getBlock_frame fun option t _ => ?_)
        cases option with
        | none => exact Leads.pure trivial
        | some _ =>
            refine leads_getBlock_frame fun option t' _ => leads_unwrap fun current _ => ?_
            refine Leads.bind (Q := fun _ _ => True) ?_ fun (done, toCommit') t'' _ _ => ?_
            · refine leads_getCore (Leads.ite (fun _ => ?_) fun _ => Leads.pure trivial)
              exact leads_commitReferences ih _ _ _
            · refine Leads.ite (fun _ => ?_) fun _ => Leads.pure trivial
              exact leads_modifyChain ⟨rfl, fun _ => rfl, rfl, [], by simp, by simp⟩ (ih _ _ _)

theorem leads_deliver (toCommit : List Block) (s : State) :
    Leads CommitFrame (deliver toCommit) s (fun _ _ => True) := by
  induction toCommit generalizing s with
  | nil => exact Leads.pure trivial
  | cons block rest ih =>
      unfold deliver
      by_cases payload : block.payload ≠ []
      · simp only [if_pos payload]
        exact leads_emit (CommitFrame.emit trivial) (leads_emit (CommitFrame.emit trivial) (ih _))
      · simp only [if_neg payload]
        exact leads_emit (CommitFrame.emit trivial) (ih _)

theorem leads_commit [Bincode] (fuel : Nat) (block : Block) (s : State) :
    Leads CommitFrame (commit fuel block) s (fun _ _ => True) := by
  refine leads_get (leads_emit (CommitFrame.emit trivial) ?_)
  refine Leads.bind (leads_commitPrevBlock fuel block [] _) fun (_, toCommit) t _ _ => ?_
  exact leads_deliver _ _

theorem commit_frame [Bincode] (fuel : Nat) (block : Block) (s : State) : CommitFrame s (final (commit fuel block) s) :=
  (leads_commit fuel block s).final

end Core
end HotstuffDag
