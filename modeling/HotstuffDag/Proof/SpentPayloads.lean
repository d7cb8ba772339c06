import HotstuffDag.Proof.PayloadQueues

/-! # Payloads that are proposed again

A digest leaves the queues when it is answered to `Get` or committed, and nothing remembers it. What is
delivered once more is queued once more. -/

namespace HotstuffDag
open Library Library.Exec
namespace Mempool
variable {s : State} {max : Nat} {d : Digest}

/-- What is taken from one queue does not stay in the other. -/
def Cleared (s : State) (max : Nat) : Prop := ∀ d ∈ optTaken s max, d ∈ s.core.pesQueue → d ∈ pesTaken s max

/-- The second queue is only drained after the first. -/
theorem optTaken_of_pesTaken (h : d ∈ pesTaken s max) (opt : d ∈ s.core.optQueue) : d ∈ optTaken s max := by
  have budget : (optTaken s max).length < max / Core.digestLen := by
    by_contra full
    unfold pesTaken HashSet.take at h
    rw [Nat.sub_eq_zero_of_le (Nat.not_lt.mp full), List.take_zero] at h
    cases h
  have listed : d ∈ s.env.optOrder.arrange s.core.optQueue.items := (s.env.optOrder.perm _).mem_iff.mpr opt
  unfold optTaken HashSet.take at budget ⊢
  rw [List.length_take] at budget
  rwa [List.take_of_length_le (by omega)]

variable [Crypto]

/-- After `Get`, nothing that it has answered is queued. -/
theorem not_queued_of_answered (cleared : ¬ s.Idle → Cleared s max) (mem : d ∈ answered s max) :
    ¬ (final (Core.getPayload max) s).core.queued d := by
  by_cases idle : s.Idle
  · have core : (final (Core.getPayload max) s).core = s.core := by
      unfold final
      cases made : freshPayload s with
      | some p => rw [getPayload_fresh idle made]; rfl
      | none =>
          rw [answered_idle idle, made] at mem
          cases mem
    rw [core]
    rintro (opt | pes)
    · have empty := List.isEmpty_iff.mp idle.1
      change d ∈ s.core.optQueue.items at opt
      rw [empty] at opt
      cases opt
    · have empty := List.isEmpty_iff.mp idle.2
      change d ∈ s.core.pesQueue.items at pes
      rw [empty] at pes
      cases pes
  · rw [answered_busy idle] at mem
    rw [final_busy idle]
    rintro (opt | pes)
    · obtain ⟨untaken, opt⟩ := (HashSet.mem_removeAll _).mp opt
      rcases List.mem_append.mp mem with taken | taken
      · exact untaken taken
      · exact untaken (optTaken_of_pesTaken taken opt)
    · obtain ⟨untaken, pes⟩ := (HashSet.mem_removeAll _).mp pes
      rcases List.mem_append.mp mem with taken | taken
      · exact untaken (cleared idle d taken pes)
      · exact untaken taken

theorem final_get (max : Nat) (s : State) :
    (final (Core.handleConsensus (.get max)) s).core = (final (Core.getPayload max) s).core := by
  unfold Core.handleConsensus final
  dsimp only
  rw [bind_eq]
  unfold Core.attempt
  cases Core.getPayload max s with
  | ok digests t => rfl
  | error e t => cases e <;> rfl

end Mempool

variable [Crypto]

namespace Host
variable {host : Host} {inputs : List HostInput} {input : HostInput} {d : Digest} {l : List Digest}

/-- The digests that a step answers to `Get`; a core that has ended answers nothing. -/
def returns (host : Host) : HostInput → List Digest
  | .mempool (.call (.get max) env) =>
      if host.mempool.alive then Mempool.answered (host.mempool.state host.store env) max else []
  | _ => []

/-- The digests that a step answers, or removes because they are committed. -/
def spends (host : Host) : HostInput → List Digest
  | .mempool (.call (.get max) env) =>
      if host.mempool.alive then Mempool.answered (host.mempool.state host.store env) max else []
  | .mempool (.call (.cleanup b0) _) => if host.mempool.alive then b0.payload else []
  | _ => []

def spent [Bincode] [Mempool.PayloadBincode] (host : Host) : List HostInput → List Digest
  | [] => []
  | input :: rest => host.spends input ++ (host.step input).spent rest

theorem spent_snoc [Bincode] [Mempool.PayloadBincode] (inputs : List HostInput) (input : HostInput) :
    host.spent (inputs ++ [input]) = host.spent inputs ++ (host.run inputs).spends input := by
  induction inputs generalizing host with
  | nil => exact List.append_nil _
  | cons first rest ih =>
      show host.spends first ++ (host.step first).spent (rest ++ [input]) = _
      rw [ih, ← List.append_assoc]
      rfl

/-- No digest is answered after it was answered or committed. -/
def ProposesOnce [Bincode] [Mempool.PayloadBincode] (host : Host) (inputs : List HostInput) : Prop :=
  ∀ before input after, inputs = before ++ input :: after → ∀ d ∈ (host.run before).returns input, d ∉ host.spent before

/-- A step puts nothing into a queue, and makes no payload, that is spent, and `Get` leaves nothing that it answers in a
queue. -/
def Spares (host : Host) (spent : List Digest) : HostInput → Prop
  | .mempool (.call (.get max) env) =>
      ((host.mempool.state host.store env).Idle →
        ∀ p, Mempool.freshPayload (host.mempool.state host.store env) = some p → p.digest ∉ spent) ∧
      (¬ (host.mempool.state host.store env).Idle → Mempool.Cleared (host.mempool.state host.store env) max)
  | .mempool input => ∀ d, host.mempool.Enters input d → d ∉ spent
  | .consensus _ _ _ => True

/-- Every step of the run spares what was spent before it. -/
def Careful [Bincode] [Mempool.PayloadBincode] (host : Host) (inputs : List HostInput) : Prop :=
  ∀ before input after, inputs = before ++ input :: after → (host.run before).Spares (host.spent before) input

theorem spares_get {max : Nat} {env : Mempool.Env}
    (fresh : Mempool.freshPayload (host.mempool.state host.store env) = none)
    (opt : Mempool.optTaken (host.mempool.state host.store env) max = []) :
    host.Spares l (.mempool (.call (.get max) env)) := by
  constructor
  · intro _ p made
    rw [fresh] at made
    cases made
  · intro _ d taken
    rw [opt] at taken
    cases taken

/-! ## What a step keeps -/

/-- What is spent is not queued. -/
def Unqueued (host : Host) (l : List Digest) : Prop := ∀ d ∈ l, ¬ host.mempool.core.queued d

theorem Unqueued.enters [Bincode] [Mempool.PayloadBincode] (h : host.Unqueued l) {input : MempoolInput}
    (spares : ∀ d, host.mempool.Enters input d → d ∉ l) :
    (host.step (.mempool input)).Unqueued l := by
  intro d mem queued
  rcases (Mempool.step_enqueues (m := host.mempool) host.store input).2 d queued with old | ⟨enters, -⟩
  · exact h d mem old
  · exact spares d enters mem

theorem get_core [Bincode] [Mempool.PayloadBincode] (alive : host.mempool.alive = true) (max : Nat) (env : Mempool.Env) :
    (host.step (.mempool (.call (.get max) env))).mempool.core =
      (final (Mempool.Core.getPayload max) (host.mempool.state host.store env)).core := by
  unfold Host.step Mempool.step
  dsimp only
  rw [Mempool.exec_alive alive]
  exact Mempool.final_get max (host.mempool.state host.store env)

theorem cleanup_core [Bincode] [Mempool.PayloadBincode] (alive : host.mempool.alive = true) (b0 : Block) (env : Mempool.Env) :
    (host.step (.mempool (.call (.cleanup b0) env))).mempool.core = { host.mempool.core with
      optQueue := host.mempool.core.optQueue.removeAll b0.payload
      pesQueue := host.mempool.core.pesQueue.removeAll b0.payload } := by
  unfold Host.step Mempool.step
  dsimp only
  rw [Mempool.exec_alive alive]
  rfl

theorem Unqueued.step [Bincode] [Mempool.PayloadBincode] (h : host.Unqueued l) (spares : host.Spares l input) :
    (host.step input).Unqueued (l ++ host.spends input) := by
  have others {input : HostInput} (unspent : host.spends input = []) (kept : (host.step input).Unqueued l) :
      (host.step input).Unqueued (l ++ host.spends input) := by
    rw [unspent, List.append_nil]
    exact kept
  cases input with
  | consensus channel message env => exact others rfl h
  | mempool input =>
      cases input with
      | call call env =>
          have none : ∀ d, host.mempool.Enters (.call call env) d → d ∉ l := fun d enters => enters.elim
          cases call with
          | get max =>
              cases alive : host.mempool.alive with
              | false => exact others (if_neg (by simp [alive])) (h.enters none)
              | true =>
                  have spent : host.spends (.mempool (.call (.get max) env)) =
                      Mempool.answered (host.mempool.state host.store env) max := if_pos alive
                  intro d mem
                  rw [spent] at mem
                  rcases List.mem_append.mp mem with old | answered
                  · exact h.enters none d old
                  · rw [get_core alive]
                    exact Mempool.not_queued_of_answered spares.2 answered
          | verify block => exact others rfl (h.enters none)
          | cleanup b0 =>
              cases alive : host.mempool.alive with
              | false => exact others (if_neg (by simp [alive])) (h.enters none)
              | true =>
                  have spent : host.spends (.mempool (.call (.cleanup b0) env)) = b0.payload := if_pos alive
                  intro d mem
                  rw [spent] at mem
                  rcases List.mem_append.mp mem with old | committed
                  · exact h.enters none d old
                  · rw [cleanup_core alive]
                    rintro (opt | pes)
                    · exact ((HashSet.mem_removeAll _).mp opt).1 committed
                    · exact ((HashSet.mem_removeAll _).mp pes).1 committed
      | client tx | own env | network message env | inner now | finish id | cancel id | fail id | tick now =>
          exact others rfl (h.enters spares)

theorem returns_unspent (h : host.Unqueued l) (spares : host.Spares l input) : ∀ d ∈ host.returns input, d ∉ l := by
  intro d mem spent
  unfold returns at mem
  split at mem
  · next max env =>
      split at mem
      · by_cases idle : (host.mempool.state host.store env).Idle
        · rw [Mempool.answered_idle idle] at mem
          obtain ⟨p, made, rfl⟩ := List.mem_map.mp mem
          exact spares.1 idle p (Option.mem_toList.mp made) spent
        · rw [Mempool.answered_busy idle] at mem
          have queued : host.mempool.core.queued d := (List.mem_append.mp mem).imp Mempool.optTaken_mem Mempool.pesTaken_mem
          exact h d spent queued
      · cases mem
  · cases mem

/-! ## Runs -/

theorem unqueued_run [Bincode] [Mempool.PayloadBincode] (start : host.Unqueued []) (careful : host.Careful inputs)
    (before after : List HostInput)
    (split : inputs = before ++ after) : (host.run before).Unqueued (host.spent before) := by
  induction before using List.reverseRecOn generalizing after with
  | nil => exact start
  | append_singleton before input ih =>
      have split' : inputs = before ++ input :: after := by
        rw [split, List.append_assoc]
        rfl
      rw [spent_snoc, run_snoc]
      exact (ih _ split').step (careful before input after split')

/-- A run that spares what is spent proposes a payload once. -/
theorem payloads_proposed_once [Bincode] [Mempool.PayloadBincode] (core : Core) (env : Env) (name : PublicKey)
    (committee : Mempool.Committee)
    (parameters : Mempool.Parameters) (inputs : List HostInput)
    (careful : (start core env (.new name committee parameters)).Careful inputs) :
    (start core env (.new name committee parameters)).ProposesOnce inputs := by
  intro before input after split
  have none : (start core env (.new name committee parameters)).Unqueued [] := fun d mem => absurd mem List.not_mem_nil
  exact returns_unspent (unqueued_run none careful before _ split) (careful before input after split)

end Host
end HotstuffDag

namespace HotstuffDag.Sample

def gets : HostInput := .mempool (.call (.get 64) mempoolEnv)

def deliveredOnce : List HostInput := [others delivered, gets, gets]

theorem delivered_proposed_once : (host 1).ProposesOnce deliveredOnce ∧
    (host 1).spent deliveredOnce = [delivered.digest] := by
  refine ⟨Host.payloads_proposed_once (core 1) env (key 1) mempoolCommittee ⟨100, 10000, 500⟩ deliveredOnce ?_, by decide +kernel⟩
  show (host 1).Careful deliveredOnce
  intro before input after split
  rcases before with _ | ⟨a, _ | ⟨b, _ | ⟨c, rest⟩⟩⟩
  · obtain ⟨rfl, -⟩ := List.cons.inj split
    exact fun _ _ => List.not_mem_nil
  · obtain ⟨rfl, later⟩ := List.cons.inj split
    obtain ⟨rfl, -⟩ := List.cons.inj later
    exact Host.spares_get (by decide +kernel) (by decide +kernel)
  · obtain ⟨rfl, later⟩ := List.cons.inj split
    obtain ⟨rfl, last⟩ := List.cons.inj later
    obtain ⟨rfl, -⟩ := List.cons.inj last
    exact Host.spares_get (by decide +kernel) (by decide +kernel)
  · have lengths := congrArg List.length split
    simp [deliveredOnce] at lengths

/-- A peer delivers a payload again after it was answered. -/
def redelivered : List HostInput := [others delivered, gets, others delivered]

/-- The payload arrives after a block that lists it was committed. -/
def deliveredLate : List HostInput := [.mempool (.call (.cleanup supplied) mempoolEnv), others delivered]

theorem payload_proposed_again :
    ¬ (host 1).ProposesOnce (redelivered ++ [gets]) ∧ ((host 1).run redelivered).returns gets = [delivered.digest] ∧
      (host 1).spent redelivered = [delivered.digest] ∧ ¬ (host 1).ProposesOnce (deliveredLate ++ [gets]) := by
  have again : ((host 1).run redelivered).returns gets = [delivered.digest] := by decide +kernel
  have answered : (host 1).spent redelivered = [delivered.digest] := by decide +kernel
  have late : ((host 1).run deliveredLate).returns gets = [delivered.digest] := by decide +kernel
  have committed : (host 1).spent deliveredLate = [delivered.digest] := by decide +kernel
  refine ⟨fun once => ?_, again, answered, fun once => ?_⟩
  · apply once redelivered gets [] rfl delivered.digest
    · rw [again]
      exact List.mem_cons_self
    · rw [answered]
      exact List.mem_cons_self
  · apply once deliveredLate gets [] rfl delivered.digest
    · rw [late]
      exact List.mem_cons_self
    · rw [committed]
      exact List.mem_cons_self

end HotstuffDag.Sample
