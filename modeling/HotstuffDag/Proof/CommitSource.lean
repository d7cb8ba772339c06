import HotstuffDag.Proof.Certificates
import HotstuffDag.Proof.CommitOnce

/-! # Where committed blocks come from

Every block that a commit delivers is read from the store for an entry above height 0 of a chain. -/

namespace HotstuffDag
open Library Library.Exec

section

/-! ## Blocks that a chain lists -/

def Listed [Bincode] (store : Store) (c : Chain) (b : Block) : Prop :=
  ∃ h d, 0 < h ∧ c.heightToDigest.get? h = some d ∧ Fetched store d b

/-- A block of the chain that is worked on or of a stored one. -/
def ListedAt [Bincode] (k : Core) (c : Chain) (b : Block) : Prop :=
  Listed k.store c b ∨ ∃ name c', k.pubkeyToChain.get? name = some c' ∧ Listed k.store c' b

theorem Listed.of_uncommitted [Bincode] {store : Store} {c c' : Chain} {b : Block} (h : Listed store c' b)
    (same : c'.uncommitted = c.uncommitted) : Listed store c b := by
  have entries := Chain.uncommitted_eq Chain.heightToDigest (fun _ => rfl) same
  obtain ⟨height, d, positive, entry, fetched⟩ := h
  rw [entries] at entry
  exact ⟨height, d, positive, entry, fetched⟩

/-- A part of a commit that delivers nothing. -/
structure Search (s s' : State) : Prop where
  frame : CommitFrame s s'
  committed : committed s'.log = committed s.log

namespace Search
variable {s s' s'' : State}

theorem trans (h : Search s s') (h' : Search s' s'') : Search s s'' :=
  ⟨h.frame.trans h'.frame, h'.committed.trans h.committed⟩

instance : Std.Refl Search := ⟨fun s => ⟨CommitFrame.refl s, rfl⟩⟩

instance : IsTrans State Search := ⟨fun _ _ _ => trans⟩

theorem store (h : Search s s') : s'.core.store = s.core.store := h.frame.core_eq Core.store fun _ _ => rfl

theorem arranged (h : Search s s') (b : Block) : s'.core.arranged b = s.core.arranged b :=
  Core.arranged_congr (h.frame.core_eq Core.leader fun _ _ => rfl) b

/-- The lists stay as they are. -/
theorem listed [Bincode] (h : Search s s') {b : Block} (listed : ListedAt s'.core s'.chain b) : ListedAt s.core s.chain b := by
  unfold ListedAt at listed ⊢
  rw [h.store] at listed
  rcases listed with own | ⟨name, c, found, other⟩
  · exact .inl (own.of_uncommitted h.frame.chain)
  · have same := h.frame.chains name
    rw [found, Option.map_some] at same
    obtain ⟨c₀, found₀, same₀⟩ := Option.map_eq_some_iff.mp same.symm
    exact .inr ⟨name, c₀, found₀, other.of_uncommitted same₀.symm⟩

theorem env (s : State) (env : Env) : Search s { s with env := env } := ⟨CommitFrame.env s env, rfl⟩

theorem request (s : State) (author : PublicKey) (digest : Digest) :
    Search s { s with log := s.log ++ [.request author digest none] } :=
  ⟨CommitFrame.emit trivial, by simp [HotstuffDag.committed]⟩

theorem count (s : State) (n : SeqNumber) :
    Search s { s with chain := { s.chain with lastCommittedHeight := n } } :=
  ⟨⟨rfl, fun _ => rfl, rfl, [], by simp, by simp⟩, rfl⟩

end Search

/-! ## The walk -/

/-- A block that is listed, as it is put up. -/
def Presented [Bincode] (k : Core) (c : Chain) (b : Block) : Prop := ∃ b0, ListedAt k c b0 ∧ b = k.arranged b0

theorem Search.presented [Bincode] {s s' : State} (h : Search s s') {b : Block} (presented : Presented s'.core s'.chain b) :
    Presented s.core s.chain b := by
  obtain ⟨b0, listed, rfl⟩ := presented
  exact ⟨b0, h.listed listed, h.arranged b0⟩

/-- What a walk has put up is listed, besides what was there before. -/
abbrev PutUp [Bincode] (s : State) (toCommit : List Block) (result : Bool × List Block) : Prop :=
  ∀ b ∈ result.2, b ∈ toCommit ∨ Presented s.core s.chain b

theorem PutUp.back [Bincode] {s s' : State} {toCommit toCommit' : List Block} {result : Bool × List Block}
    (h : PutUp s' toCommit' result) (search : Search s s')
    (before : ∀ b ∈ toCommit', b ∈ toCommit ∨ Presented s.core s.chain b) : PutUp s toCommit result :=
  fun b mem => (h b mem).elim (before b) fun presented => .inr (search.presented presented)

namespace Core

theorem leads_withChain_search {β γ : Type} {s : State} {Q : β → State → Prop} {T : γ → Prop} {target : Chain}
    {x : M γ} {f : γ × Chain → M β} (run : Leads Search x { s with chain := target } fun a _ => T a)
    (h : ∀ a c t, Search s t → c.uncommitted = target.uncommitted → T a → Leads Search (f (a, c)) t Q) :
    Leads Search (withChain target x >>= f) s Q := by
  unfold Leads at run ⊢
  rw [bind_eq]
  unfold withChain
  cases exit : x { s with chain := target } with
  | ok a t =>
      rw [exit] at run
      have back : Search s { t with chain := s.chain } := ⟨run.1.frame.back, run.1.committed⟩
      exact (h a t.chain _ back run.1.frame.chain run.2).after back
  | error e t =>
      rw [exit] at run
      exact ⟨run.frame.back, run.committed⟩

theorem leads_references_listed [Bincode] {recurse : Block → List Block → M (Bool × List Block)}
    (run : ∀ block toCommit t, Leads Search (recurse block toCommit) t fun r _ => PutUp t toCommit r)
    (references : List (PublicKey × Digest)) (toCommit : List Block) (s : State) :
    Leads Search (commitReferences recurse references toCommit) s fun r _ => PutUp s toCommit r := by
  induction references generalizing toCommit s with
  | nil => exact Leads.pure fun b mem => .inl mem
  | cons reference rest ih =>
      refine leads_getCore (leads_getBlock Search.env (fun _ _ _ => Search.request _ _ _) (fun env block _ => ?_)
        fun env _ _ => Leads.pure fun b mem => .inl mem)
      refine leads_getCore (leads_unwrap fun target found => ?_)
      refine leads_withChain_search (run block toCommit _) fun (done, list) c t search same put => ?_
      have listed : ∀ b ∈ list, b ∈ toCommit ∨ Presented s.core s.chain b := by
        refine fun b mem => (put b mem).imp_right fun presented => ?_
        obtain ⟨b0, listed, same⟩ := presented
        refine ⟨b0, ?_, same⟩
        rcases listed with own | other
        · exact .inr ⟨block.author, target, found, own⟩
        · exact .inr other
      refine Leads.ite (fun _ => ?_) fun _ => Leads.pure listed
      have stored : Search t { t with core := { t.core with
          pubkeyToChain := t.core.pubkeyToChain.insert block.author c } } := by
        refine ⟨CommitFrame.stored ?_, rfl⟩
        rw [search.frame.chains, found, same]
        rfl
      refine leads_modifyCore stored ((ih list _).weaken fun r t' _ put' => ?_)
      exact put'.back (((Search.env s env).trans search).trans stored) listed

theorem leads_commitPrevBlock_listed [Bincode] (fuel : Nat) (block : Block) (toCommit : List Block) (s : State) :
    Leads Search (commitPrevBlock fuel block toCommit) s fun r _ => PutUp s toCommit r := by
  induction fuel generalizing block toCommit s with
  | zero => exact Leads.throw
  | succ fuel ih =>
      unfold commitPrevBlock
      refine leads_getChain (Leads.ite (fun _ => Leads.pure fun b mem => .inl mem) fun below => ?_)
      obtain ⟨⟨above, -⟩, -⟩ := ahead_succ below
      split
      · exact Leads.pure fun b mem => .inl mem
      · rename_i digest entry
        refine leads_getCore (leads_getBlock Search.env (fun _ _ _ => Search.request _ _ _) (fun env b _ => ?_)
          fun env _ _ => Leads.pure fun b mem => .inl mem)
        refine leads_getBlock Search.env (fun _ _ _ => Search.request _ _ _) (fun env' current fetched => ?_)
          fun env _ _ => leads_panic
        refine leads_unwrap fun current' same => ?_
        obtain rfl := Option.some.inj same
        have listed : ListedAt s.core s.chain current :=
          .inl ⟨_, digest, UInt64.lt_of_le_of_lt UInt64.zero_le above, entry, fetched⟩
        refine Leads.bind (Q := fun r _ => PutUp s toCommit r) ?_ fun (done, list) t search put => ?_
        · refine leads_getCore (Leads.ite (fun _ => ?_) fun _ => Leads.pure fun b mem => .inl mem)
          exact leads_references_listed ih _ toCommit _
        · refine Leads.ite (fun _ => ?_) fun _ => Leads.pure put
          refine leads_modifyChain (Search.count _ _) ((ih block (s.core.arranged current :: list) _).weaken fun r t' _ put' => ?_)
          refine put'.back (((Search.env s env').trans search).trans (Search.count t _)) fun b mem => ?_
          rcases List.mem_cons.mp mem with rfl | mem
          · exact .inr ⟨current, listed, rfl⟩
          · exact put b mem

theorem commit_sent [Bincode] (fuel : Nat) (block : Block) (s : State) : ∃ blocks,
    committed (final (commit fuel block) s).log = committed s.log ++ blocks ∧ ∀ b ∈ blocks, Presented s.core s.chain b := by
  have walked := leads_commitPrevBlock_listed fuel block []
    { s with log := s.log ++ [.commitCall s.core s.chain block] }
  have called : committed (s.log ++ [.commitCall s.core s.chain block]) = committed s.log := by simp [committed]
  unfold final commit
  simp only [bind_eq, get_run, emit_run]
  unfold Leads at walked
  cases exit : commitPrevBlock fuel block [] { s with log := s.log ++ [.commitCall s.core s.chain block] } with
  | ok r t =>
      rw [exit] at walked
      obtain ⟨log, run, same⟩ := deliver_run r.2.reverse t
      refine ⟨r.2.reverse, ?_, fun b mem => ?_⟩
      · simp only [run, same, walked.1.committed, called]
      · rcases walked.2 b (List.mem_reverse.mp mem) with none | presented
        · exact absurd none List.not_mem_nil
        · exact presented
  | error e t =>
      rw [exit] at walked
      refine ⟨[], ?_, fun b mem => absurd mem List.not_mem_nil⟩
      simp only [walked.committed, called, List.append_nil]

end Core

/-! ## The invariant -/

theorem mem_committed {l : List Event} {b : Block} : b ∈ committed l ↔ Event.commit b ∈ l := by
  constructor
  · intro h
    obtain ⟨e, mem, found⟩ := List.mem_filterMap.mp h
    split at found
    · rw [← Option.some.inj found]
      exact mem
    · contradiction
  · exact fun h => List.mem_filterMap.mpr ⟨_, h, rfl⟩

variable [Crypto]

/-- What is stored reads as blocks of that digest only. -/
def StoreSound [Bincode] (k : Core) : Prop :=
  ∀ d value b, k.store.get? d = some value → Synchronizer.decodeBlock value = .ok b → b.digest = d

/-- The block is certified on some chain, or it is the genesis in place of a certified block of its digest. -/
def CommitSource (Q : PublicKey → QC → Prop) (b : Block) : Prop :=
  ∃ name qc, Q name qc ∧ 0 < qc.height ∧ (b.digest = qc.hash ∨ qc.hash = QC.genesis.hash)

/-- The block is delivered by a commit, which sorts the references of a block of the leader. -/
def Sourced [Bincode] (Q : PublicKey → QC → Prop) (l : List Event) (b : Block) : Prop :=
  ∃ b0 k c top, CommitSource Q b0 ∧ Event.commitCall k c top ∈ l ∧ ListedAt k c b0 ∧ b = k.arranged b0

theorem Sourced.mono [Bincode] {Q : PublicKey → QC → Prop} {l l' : List Event} {b : Block} (h : Sourced Q l b) (le : l <+: l') :
    Sourced Q l' b := by
  obtain ⟨b0, k, c, top, source, called, listed, same⟩ := h
  exact ⟨b0, k, c, top, source, le.subset called, listed, same⟩

structure Commits [Bincode] (Q : PublicKey → QC → Prop) (k : Core) (l : List Event) : Prop where
  store : StoreSound k
  sources : ∀ b, Event.commit b ∈ l → Sourced Q l b

theorem Act.storeSound [Bincode] {got : ConsensusMessage → Prop} {s s' : Conf} (act : Act got s s') (h : StoreSound s.core) :
    StoreSound s'.core := by
  intro d value b' stored decodes
  rcases act.store with same | ⟨b, -, -, held⟩
  · rw [same] at stored
    exact h d value b' stored decodes
  · rw [held] at stored
    rcases stored_insert stored decodes with ⟨digest, rfl⟩ | old
    · exact digest
    · exact h d value b' old decodes

theorem Listed.source [Bincode] {Q : PublicKey → QC → Prop} {committee : Committee} {name : PublicKey} {k : Core} {c : Chain}
    {b : Block} (certs : c.Certs Q committee name) (sound : StoreSound k) (h : Listed k.store c b) : CommitSource Q b := by
  obtain ⟨height, d, positive, entry, fetched⟩ := h
  obtain ⟨qc, holds, rfl, rfl⟩ := certs.entries height d entry
  refine ⟨name, qc, holds, positive, ?_⟩
  rcases fetched with ⟨genesis, -⟩ | ⟨value, stored, decodes⟩
  · exact .inr genesis
  · exact .inl (sound qc.hash value b stored decodes)

theorem commitsInvariant [Bincode] {ok : Input → Prop} {Q : PublicKey → QC → Prop} {T : TC → Prop} {committee : Committee}
    {log : List Event} (sources : Sources Q T committee (Received ok) log)
    (payloads : ∀ payload, ok (.storePayload payload) → Bincode.blockOfPayload payload = none) :
    Invariant ok fun v k l => l <+: log → Certs Q T committee v k l ∧ Commits Q k l where
  act := by
    intro s s' _ act h le
    obtain ⟨certs, commits⟩ := h (act.frame.log.trans le)
    refine ⟨Certs.act sources act le certs, act.storeSound commits.store, fun b sent => ?_⟩
    have old (sent : b ∈ committed s.log) : Sourced Q s'.log b :=
      (commits.sources b (mem_committed.mp sent)).mono act.frame.log
    rw [← mem_committed] at sent
    cases act.commitCase with
    | @commit fuel env b' done =>
        subst done
        have called := Core.commit_called fuel b' ⟨s.core, s.chain, s.log, env⟩
        obtain ⟨blocks, grown, presented⟩ := Core.commit_sent fuel b' ⟨s.core, s.chain, s.log, env⟩
        change b ∈ committed (final (Core.commit fuel b') ⟨s.core, s.chain, s.log, env⟩).log at sent
        rw [grown] at sent
        rcases List.mem_append.mp sent with sent | fresh
        · exact old sent
        · obtain ⟨b0, listed, same⟩ := presented b fresh
          refine ⟨b0, s.core, s.chain, b', ?_, called, listed, same⟩
          rcases listed with own | ⟨name, c, found, other⟩
          · exact own.source (certs.chains _ _ (view_self _ _)) commits.store
          · exact other.source (certs.stored name c found) commits.store
    | still same | skip same =>
        rw [same] at sent
        exact old sent
  blind := fun m same h le =>
    have ⟨certs, commits⟩ := h le
    ⟨(certsInvariant sources).blind m same (fun _ => certs) le, commits.store, commits.sources⟩
  makePayload := by
    intro v k l transactions h le
    obtain ⟨certs, commits⟩ := h ((List.prefix_append _ _).trans le)
    refine ⟨(certsInvariant sources).makePayload transactions (fun _ => certs) le, commits.store, fun b sent => ?_⟩
    exact (commits.sources b (by simpa using sent)).mono (List.prefix_append _ _)
  storePayload := by
    intro v k l payload allowed h le
    obtain ⟨certs, commits⟩ := h le
    refine ⟨(certsInvariant sources).storePayload payload allowed (fun _ => certs) le, ?_, commits.sources⟩
    intro d value b stored decodes
    rcases stored_insert_payload stored decodes with read | old
    · rw [payloads payload allowed] at read
      contradiction
    · exact commits.store d value b old decodes

end
end HotstuffDag
