import HotstuffDag.Proof.Invariant

/-! # A timeout locks the leader

A node signs a timeout for its own epoch, and only while it changes its view. The flag stays until
the epoch ends, and votes for the leader and 2-chain commits ask for it. -/

namespace HotstuffDag
open Library Library.Exec

/-- The epoch of a core with this log. -/
def epochOf (l : List Event) : SeqNumber :=
  l.foldl (fun epoch e =>
    match e with
    | .epochEnd k _ _ => k.epoch + 1
    | _ => epoch) 0

/-- A vote for a block of the leader, or a 2-chain commit. -/
inductive Event.LedBy (leader : PublicKey) : Event → Prop
  | vote {v : Vote} (author : v.proposer = leader) : Event.LedBy leader (.signed (.vote v))
  | twoChain {k : Core} {c : Chain} {b b0 b1 : Block} : Event.LedBy leader (.twoChain k c b b0 b1)

/-- After a timeout for an epoch nothing is done for its leader until the epoch is over. -/
def LocksLeader (committee : Committee) (l : List Event) : Prop :=
  ∀ before e, before ++ [e] <+: l → ∀ t, Event.signed (.timeout t) ∈ before →
    e.LedBy (committee.getLeader t.epoch) → t.epoch < epochOf before

/-- The events the lock is about. -/
def Event.ofLock : Event → Prop
  | .signed (.vote _) | .signed (.timeout _) | .twoChain _ _ _ _ _ | .epochEnd _ _ _ => True
  | _ => False

/-! ## Logs that grow -/

variable {committee : Committee} {l more : List Event} {e : Event}

@[simp] theorem epochOf_nil : epochOf [] = 0 := rfl

theorem epochOf_concat (h : ∀ k c val, e ≠ .epochEnd k c val) : epochOf (l ++ [e]) = epochOf l := by
  unfold epochOf
  rw [List.foldl_append]
  cases e with
  | epochEnd k c val => exact absurd rfl (h k c val)
  | _ => rfl

@[simp] theorem epochOf_epochEnd (k : Core) (c : Chain) (val : UInt64) :
    epochOf (l ++ [.epochEnd k c val]) = k.epoch + 1 := by
  unfold epochOf
  rw [List.foldl_append]
  rfl

theorem LocksLeader.concat (h : LocksLeader committee l)
    (last : ∀ t, Event.signed (.timeout t) ∈ l → e.LedBy (committee.getLeader t.epoch) → t.epoch < epochOf l) :
    LocksLeader committee (l ++ [e]) := by
  intro before e' front
  rcases List.prefix_concat_iff.mp front with whole | earlier
  · obtain ⟨rfl, same⟩ := List.append_inj' whole rfl
    obtain rfl := List.singleton_inj.mp same
    exact last
  · exact h before e' earlier

/-- What a log says about the lock of a core. -/
structure Locked (authorities : Committee) (k : Core) (l : List Event) : Prop where
  committee : k.committee = authorities
  epoch : epochOf l = k.epoch
  timeouts : ∀ t, Event.signed (.timeout t) ∈ l → t.epoch < k.epoch ∨ t.epoch = k.epoch ∧ k.isViewChange = true
  locks : LocksLeader authorities l

namespace Locked
variable {k k' : Core}

theorem concat (h : Locked committee k l) (quiet : ¬ e.ofLock) : Locked committee k (l ++ [e]) where
  committee := h.committee
  epoch := by
    rw [epochOf_concat]
    · exact h.epoch
    · rintro k c val rfl
      exact quiet trivial
  timeouts := by
    intro t signed
    rcases List.mem_append.mp signed with old | new
    · exact h.timeouts t old
    · rw [← List.mem_singleton.mp new] at quiet
      exact absurd trivial quiet
  locks := h.locks.concat fun t _ led => by
    cases led <;> exact absurd trivial quiet

theorem append (h : Locked committee k l) (quiet : ∀ e ∈ more, ¬ e.ofLock) : Locked committee k (l ++ more) := by
  induction more generalizing l with
  | nil => simpa using h
  | cons e rest ih =>
      have further := ih (h.concat (quiet e List.mem_cons_self)) fun e' mem => quiet e' (List.mem_cons_of_mem _ mem)
      rwa [List.append_assoc] at further

theorem congr (h : Locked committee k l) (same : k'.committee = k.committee) (epoch : k'.epoch = k.epoch)
    (kept : k.isViewChange = true → k'.isViewChange = true) : Locked committee k' l where
  committee := same.trans h.committee
  epoch := h.epoch.trans epoch.symm
  timeouts := by
    intro t signed
    rw [epoch]
    exact (h.timeouts t signed).imp_right (And.imp_right kept)
  locks := h.locks

/-- Without a view change all timeouts are for earlier epochs. -/
theorem waiting (h : Locked committee k l) (waiting : k.isViewChange = false) {t : Timeout}
    (signed : Event.signed (.timeout t) ∈ l) : t.epoch < epochOf l := by
  rw [h.epoch]
  rcases h.timeouts t signed with past | ⟨-, changing⟩
  · exact past
  · rw [waiting] at changing
    contradiction

end Locked

/-! ## Acts -/

variable {got : ConsensusMessage → Prop}

theorem Event.not_ofLock_of_aba (h : e.ofAba) : ¬ e.ofLock := by
  unfold Event.ofAba at h
  unfold Event.ofLock
  split at h <;> simp_all

theorem Event.not_ofLock_of_commit (h : e.ofCommit) : ¬ e.ofLock := by
  unfold Event.ofCommit at h
  unfold Event.ofLock
  split at h <;> simp_all

theorem AbaAct.changing [Crypto] {k k' : Core} {l l' : List Event} (act : AbaAct got k l k' l') (h : k.isViewChange = true) :
    k'.isViewChange = true := by
  cases act with
  | enterViewChange => rfl
  | _ => exact h

theorem Locked.act [Crypto] [Bincode] {s s' : Conf} (act : Act got s s') (h : Locked committee s.core s.log) :
    Locked committee s'.core s'.log := by
  cases act with
  | aba act =>
      obtain ⟨more, log, each⟩ := act.more
      have frame := act.frame
      dsimp only
      rw [log]
      exact (h.congr frame.committee frame.epoch act.changing).append fun e mem => Event.not_ofLock_of_aba (each e mem)
  | @commit fuel env k c l b _ =>
      have frame := Core.commit_frame fuel b ⟨k, c, l, env⟩
      obtain ⟨more, log, each⟩ := frame.log
      unfold State.conf
      dsimp only
      rw [log]
      refine Locked.append (h.congr ?_ ?_ fun changing => ?_) fun e mem => Event.not_ofLock_of_commit (each e mem)
      · exact frame.core_eq Core.committee fun _ _ => rfl
      · exact frame.core_eq Core.epoch fun _ _ => rfl
      · exact (frame.core_eq Core.isViewChange fun _ _ => rfl).trans changing
  | @twoChain k c l b b0 b1 _ _ waiting =>
      refine ⟨h.committee, ?_, ?_, h.locks.concat fun t signed _ => h.waiting waiting signed⟩
      · exact (epochOf_concat fun _ _ _ => Event.noConfusion).trans h.epoch
      · exact fun t signed => h.timeouts t (by simpa using signed)
  | @grant k c l b _ _ _ _ unlocked =>
      have voted : Locked committee k (l ++ [.voted c b]) := h.concat id
      refine ⟨voted.committee, ?_, ?_, voted.locks.concat fun t signed led => ?_⟩
      · exact (epochOf_concat fun _ _ _ => Event.noConfusion).trans voted.epoch
      · exact fun t signed => h.timeouts t (by simpa using signed)
      · rw [voted.epoch]
        rcases voted.timeouts t signed with past | ⟨current, changing⟩
        · exact past
        · cases led with
          | vote author =>
              refine absurd ⟨changing, ?_⟩ unlocked
              rw [Core.leader, voted.committee, ← current]
              exact author
  | @signTimeout k c l changing _ =>
      refine ⟨h.committee, ?_, ?_, h.locks.concat fun t _ led => by cases led⟩
      · exact (epochOf_concat fun _ _ _ => Event.noConfusion).trans h.epoch
      intro t signed
      rcases List.mem_append.mp signed with old | new
      · exact h.timeouts t old
      · obtain rfl := Signed.timeout.inj (Event.signed.inj (List.mem_singleton.mp new))
        exact .inr ⟨rfl, changing⟩
  | @nextEpoch k c l val _ _ _ _ _ _ _ small =>
      have later : k.epoch < k.epoch + 1 := by
        rw [UInt64.lt_iff_toNat_lt, toNat_succ small]
        exact Nat.lt_succ_self _
      refine ⟨h.committee, epochOf_epochEnd _ _ _, ?_, h.locks.concat fun t _ led => by cases led⟩
      intro t signed
      left
      rcases h.timeouts t (by simpa using signed) with past | ⟨current, -⟩
      · exact UInt64.lt_trans past later
      · rw [current]
        exact later
  | @countVote k c l v =>
      refine h.append fun e mem => ?_
      unfold Core.assembledEvents at mem
      split at mem
      · rw [List.mem_singleton.mp mem]
        exact id
      · exact absurd mem List.not_mem_nil
  | @countTimeout k c l t =>
      have kept : Locked committee (k.keepAssembledTc (c.aggregator.addTimeout t k.committee).1) l := h.congr rfl rfl id
      refine kept.append fun e mem => ?_
      unfold Core.savedTcs at mem
      split at mem
      · rw [List.mem_singleton.mp mem]
        exact id
      · exact absurd mem List.not_mem_nil
  | request | status | propose => exact h.concat id
  | @process k c l b =>
      have kept : Locked committee (k.hold b) l := h.congr rfl rfl id
      exact kept.concat id
  | certify | lockVote => exact h

theorem Locked.new (name : PublicKey) (parameters : Parameters) (store : Store) :
    Locked committee (Core.new name committee parameters store) [] := by
  refine ⟨rfl, rfl, fun t signed => absurd signed List.not_mem_nil, fun before e front => ?_⟩
  have empty := List.prefix_nil.mp front
  simp at empty

theorem lockInvariant [Crypto] [Bincode] (ok : Input → Prop) (committee : Committee) : Invariant ok fun _ => Locked committee where
  act := fun _ act h => h.act act
  blind := fun _ _ h => h.congr rfl rfl id
  makePayload := fun _ h => h.concat id
  storePayload := fun _ _ h => h.congr rfl rfl id

/-- Once a node has signed a timeout for an epoch, it neither votes for a block of the leader of that
epoch nor commits by the 2-chain rule until its own epoch is larger. -/
theorem timeout_locks_leader [Crypto] [Bincode] (name : PublicKey) (committee : Committee) (parameters : Parameters) (store : Store)
    (env : Env) (inputs : List Input) :
    epochOf ((Node.start (Core.new name committee parameters store) env).run inputs).log =
        ((Node.start (Core.new name committee parameters store) env).run inputs).core.epoch ∧
      LocksLeader committee ((Node.start (Core.new name committee parameters store) env).run inputs).log := by
  have inv := lockInvariant (fun _ => True) committee
  obtain ⟨_, locked⟩ := (inv.run (fun i _ => trivial) (inv.init (.new name parameters store))).2
  exact ⟨locked.epoch, locked.locks⟩

end HotstuffDag
