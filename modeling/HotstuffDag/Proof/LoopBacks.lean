import HotstuffDag.Proof.SyncBooks
import HotstuffDag.Proof.MempoolWait

/-! # What the tasks loop back

The synchronizers of consensus and of the mempool hold blocks up and send them back to the core. They have
no blocks but those that they were given. -/

namespace HotstuffDag
open Library

/-! ## The synchronizer of consensus -/

namespace SyncTask
section
variable {t t' : SyncTask} {given : Block → Prop} {input : SyncInput} {B : Block}

/-- The blocks that the task has were given to `get_block`. -/
structure Holds (given : Block → Prop) (t : SyncTask) : Prop where
  inner : ∀ entry ∈ t.inner, ∀ b, entry.2.2 = some b → given b
  waiting : ∀ w ∈ t.waiting, ∀ b, w.block = some b → given b

theorem Holds.fewer (h : t.Holds given) (inner : ∀ entry ∈ t'.inner, entry ∈ t.inner)
    (waiting : ∀ w ∈ t'.waiting, w ∈ t.waiting) : t'.Holds given :=
  ⟨fun entry mem => h.inner entry (inner entry mem), fun w mem => h.waiting w (waiting w mem)⟩

variable [Crypto]

theorem Holds.request (h : t.Holds given) (author : PublicKey) (digest : Digest) {block : Option Block} (failed : Bool)
    (now : Nat) (asked : ∀ b, block = some b → given b) : (t.request author digest block failed now).Holds given := by
  constructor
  · rw [request_inner]
    exact h.inner
  · rcases request_waiting (t := t) author digest block failed now with same | more
    · rw [same]
      exact h.waiting
    · rw [more]
      intro w mem b held
      rcases List.mem_append.mp mem with old | new
      · exact h.waiting w old b held
      · rw [List.mem_singleton.mp new] at held
        exact asked b held

variable [Bincode]

theorem Holds.task (h : t.Holds given) : (t.task input).Holds given := by
  cases input with
  | receive failed now =>
      unfold SyncTask.task
      cases queue : t.inner with
      | nil => exact h
      | cons entry rest =>
          have head : entry ∈ t.inner := queue ▸ List.mem_cons_self
          have popped : Holds given { t with inner := rest } :=
            h.fewer (fun e mem => queue ▸ List.mem_cons_of_mem entry mem) fun _ mem => mem
          exact popped.request _ _ _ _ (h.inner entry head)
  | finish place value =>
      unfold SyncTask.task
      dsimp only
      split
      · split
        · apply h.fewer
          · rw [finish_inner]
            exact fun _ mem => mem
          · rw [finish_waiting]
            exact fun _ => List.mem_of_mem_eraseIdx
        · exact h
      · exact h
  | fail place => exact h.fewer (fun _ mem => mem) fun _ => List.mem_of_mem_eraseIdx
  | tick now => exact h.fewer (fun _ mem => mem) fun _ mem => mem
  | getBlock author digest block failed => exact h
  | write digest value => exact h

/-- The block was given to `get_block` in a step. -/
def Gives (input : SyncInput) (b : Block) : Prop := ∃ author digest failed, input = .getBlock author digest (some b) failed

theorem Holds.step (h : t.Holds given) (asked : ∀ b, Gives input b → given b) : (t.step input).Holds given := by
  have tasks : Holds given (if t.alive then t.task input else t) := by
    split
    · exact h.task
    · exact h
  cases input with
  | getBlock author digest block failed =>
      show (t.getBlock author digest block failed).Holds given
      unfold SyncTask.getBlock
      split
      · exact h
      · refine ⟨fun entry mem b held => ?_, h.waiting⟩
        rcases List.mem_append.mp mem with old | new
        · exact h.inner entry old b held
        · rw [List.mem_singleton.mp new] at held
          dsimp only at held
          subst held
          exact asked b ⟨author, digest, failed, rfl⟩
  | write digest value =>
      refine ⟨h.inner, fun w mem b held => ?_⟩
      obtain ⟨w', old, rfl⟩ := List.mem_map.mp mem
      apply h.waiting w' old b
      split at held <;> exact held
  | receive failed now | finish place value | fail place | tick now => exact tasks

/-- The blocks that are sent back to the core are among those. -/
theorem Holds.run {inputs : List SyncInput} (h : t.Holds given) (asked : ∀ input ∈ inputs, ∀ b, Gives input b → given b)
    (sent : .loopBack B ∈ (t.run inputs).log) : .loopBack B ∈ t.log ∨ given B := by
  induction inputs generalizing t with
  | nil => exact .inl sent
  | cons input rest ih =>
      have next := h.step (asked input List.mem_cons_self)
      refine (ih next (fun i mem => asked i (List.mem_cons_of_mem _ mem)) sent).elim (fun mem => ?_) .inr
      rcases step_sends (t := t) input with ⟨others, log, none⟩ | ⟨b, place, value, w, -, found, held, -, log⟩
      · rw [log] at mem
        exact .inl ((List.mem_append.mp mem).resolve_right (none B))
      · rw [log] at mem
        rcases List.mem_append.mp mem with old | new
        · exact .inl old
        · cases List.mem_singleton.mp new
          exact .inr (h.waiting w (List.mem_of_getElem? found) B held)

end
end SyncTask

/-! ## The synchronizer of the mempool -/

namespace Mempool
open Library.Exec
section
variable {m : Mempool} {s : State} {store : Store} {input : MempoolInput} {B : Block}

/-- The answer to `Verify` was that the block waits. -/
def Put (l : List Event) (b : Block) : Prop := .status b .wait ∈ l

/-- The blocks that the synchronizer has, and those that it has sent back, were put to wait. -/
structure Holds (m : Mempool) : Prop where
  inner : ∀ entry ∈ m.inner, ∀ missing b, entry.1 = .sync missing b → Put m.log b
  waiting : ∀ w ∈ m.synchronizer.waiting, Put m.log w.block
  sent : ∀ b, .loopBack b ∈ m.log → Put m.log b

/-- A step of the core says of each block that it hands over that it waits. -/
structure Puts (s s' : State) : Prop where
  log : ∃ more, s'.log = s.log ++ more ∧ (∀ b, .loopBack b ∉ more) ∧
    ∀ missing b, .inner (.sync missing b) ∈ more → .status b .wait ∈ more

theorem Puts.of_logs {s' : State} (h : Logs Event.blockless s s') : Puts s s' := by
  obtain ⟨more, log, each⟩ := h
  exact ⟨more, log, fun b mem => (each _ mem).elim, fun missing b mem => (each _ mem).elim⟩

variable [Crypto]

theorem verify_run_ok {block : Block} {t : State} {present : Bool} (run : Core.verifyPayload block s = .ok present t) :
    final (Core.handleConsensus (.verify block)) s = { t with log := t.log ++ [.status block (Core.statusOf (.ok present))] } := by
  unfold Core.handleConsensus final
  dsimp only
  rw [bind_eq, Core.attempt, run]
  rfl

theorem verify_run_error {block : Block} {t : State} {e : MempoolError} (run : Core.verifyPayload block s = .error (.error e) t) :
    final (Core.handleConsensus (.verify block)) s = { t with log := t.log ++ [.status block .reject] } := by
  unfold Core.handleConsensus final
  dsimp only
  rw [bind_eq, Core.attempt, run]
  rfl

theorem verify_run_panic {block : Block} {t : State} (run : Core.verifyPayload block s = .error .panic t) :
    final (Core.handleConsensus (.verify block)) s = t := by
  unfold Core.handleConsensus final
  dsimp only
  rw [bind_eq, Core.attempt, run]

theorem puts_verify (block : Block) : Puts s (final (Core.handleConsensus (.verify block)) s) := by
  have found := leads_missingDigests (s := s) block.payload HashSet.empty
  unfold Leads at found
  cases exit : Core.missingDigests block.payload HashSet.empty s with
  | error e t =>
      rw [exit] at found
      have run : Core.verifyPayload block s = .error e t := by
        unfold Core.verifyPayload
        rw [bind_eq, exit]
      cases e with
      | error e =>
          rw [verify_run_error run]
          refine ⟨[.status block .reject], ?_, by simp, by simp⟩
          rw [← found.log]
      | panic =>
          rw [verify_run_panic run]
          exact ⟨[], by rw [← found.log, List.append_nil], by simp, by simp⟩
  | ok missing t =>
      rw [exit] at found
      obtain ⟨reads, -⟩ := found
      by_cases none : missing.isEmpty = true
      · have run : Core.verifyPayload block s = .ok true t := by
          unfold Core.verifyPayload
          rw [bind_eq, exit]
          dsimp only
          rw [if_pos none]
          rfl
        rw [verify_run_ok run]
        refine ⟨[.status block .accept], ?_, by simp, by simp⟩
        rw [← reads.log]
        rfl
      · have run : Core.verifyPayload block s =
            .ok false { t with log := t.log ++ [.inner (.sync missing.items block)] } := by
          unfold Core.verifyPayload
          rw [bind_eq, exit]
          dsimp only
          rw [if_neg none]
          rfl
        rw [verify_run_ok run]
        refine ⟨[.inner (.sync missing.items block), .status block .wait], ?_, by simp, by simp⟩
        rw [← reads.log]
        simp [Core.statusOf]

theorem puts_handleConsensus (message : ConsensusMempoolMessage) : Puts s (final (Core.handleConsensus message) s) := by
  cases message with
  | get max => exact .of_logs (logs_get max).final
  | verify block => exact puts_verify block
  | cleanup digests round => exact .of_logs (logs_cleanup digests round).final

section
omit [Crypto]

theorem holds_new (name : PublicKey) (committee : Committee) (parameters : Parameters) : (new name committee parameters).Holds := by
  constructor <;> simp [new, Synchronizer.new]

theorem Holds.exec {x : M Unit} (h : m.Holds) (env : Env) (cause : Option Block)
    (puts : Puts (m.state store env) (final x (m.state store env))) : (m.exec store env cause x).1.Holds := by
  rcases exec_cases (m := m) store env cause x with same | ⟨-, same⟩
  · rw [same]
    exact h
  · obtain ⟨more, log, unsent, waits⟩ := puts.log
    have after : (m.exec store env cause x).1.log = m.log ++ more := by
      rw [same]
      exact log
    have kept {b : Block} (put : Put m.log b) : Put (m.exec store env cause x).1.log b := by
      unfold Put
      rw [after]
      exact List.mem_append_left _ put
    constructor
    · intro entry mem missing b same'
      rw [same] at mem
      rcases mem_handled_inner log mem with old | ⟨sent, -⟩
      · exact kept (h.inner entry old missing b same')
      · rw [same'] at sent
        unfold Put
        rw [after]
        exact List.mem_append_right _ (waits missing b sent)
    · intro w mem
      rw [same] at mem
      exact kept (h.waiting w mem)
    · intro b mem
      rw [after] at mem
      exact kept (h.sent b ((List.mem_append.mp mem).resolve_right (unsent b)))

theorem Holds.later {m' : HotstuffDag.Mempool} (h : m.Holds) (inner : ∀ entry ∈ m'.inner, entry ∈ m.inner)
    (waiting : ∀ w ∈ m'.synchronizer.waiting, Put m.log w.block) {more : List Event} (log : m'.log = m.log ++ more)
    (sent : ∀ b, .loopBack b ∈ more → Put m.log b) : m'.Holds := by
  have kept {b : Block} (put : Put m.log b) : Put m'.log b := by
    unfold Put
    rw [log]
    exact List.mem_append_left _ put
  refine ⟨fun entry mem missing b same => ?_, fun w mem => kept (waiting w mem), fun b mem => ?_⟩
  · exact kept (h.inner entry (inner entry mem) missing b same)
  · rw [log] at mem
    rcases List.mem_append.mp mem with old | new
    · exact kept (h.sent b old)
    · exact kept (sent b new)

/-- Nothing is sent back. -/
theorem Holds.still {m' : HotstuffDag.Mempool} (h : m.Holds) (inner : ∀ entry ∈ m'.inner, entry ∈ m.inner)
    (waiting : ∀ w ∈ m'.synchronizer.waiting, w ∈ m.synchronizer.waiting) (log : m'.log = m.log) : m'.Holds := by
  apply h.later inner (fun w mem => h.waiting w (waiting w mem)) (log.trans (List.append_nil _).symm)
  intro b mem
  cases mem

end

theorem Holds.sync (h : m.Holds) (missing : List Digest) {block : Block} (now : Nat) (put : Put m.log block) :
    (m.sync missing block now).Holds := by
  have waits : ∀ w ∈ m.synchronizer.waiting ++ [⟨m.synchronizer.created, missing, block⟩], Put m.log w.block := by
    intro w mem
    rcases List.mem_append.mp mem with old | new
    · exact h.waiting w old
    · rw [List.mem_singleton.mp new]
      exact put
  have unlogged : m.log = m.log ++ [] := (List.append_nil _).symm
  unfold Mempool.sync
  dsimp only
  split
  · exact h
  · split
    · exact h.later (fun _ mem => mem) waits unlogged fun b mem => absurd mem List.not_mem_nil
    · unfold sendRequest
      split
      · exact h.later (fun _ mem => mem) waits rfl fun b mem => by cases List.mem_singleton.mp mem
      · exact h.later (fun _ mem => mem) waits unlogged fun b mem => absurd mem List.not_mem_nil

theorem Holds.task (h : m.Holds) (store : Store) (input : MempoolInput) : (m.task store input).Holds := by
  cases input with
  | inner now =>
      unfold Mempool.task
      cases queue : m.inner with
      | nil => exact h
      | cons entry rest =>
          obtain ⟨message, cause⟩ := entry
          have head : (message, cause) ∈ m.inner := queue ▸ List.mem_cons_self
          have popped : Holds { m with inner := rest } :=
            h.still (fun e mem => queue ▸ List.mem_cons_of_mem (message, cause) mem) (fun _ mem => mem) rfl
          cases message with
          | sync missing block => exact popped.sync missing now (h.inner _ head missing block rfl)
          | clean round => exact popped.still (fun _ mem => mem) (fun _ mem => mem) rfl
  | finish id =>
      unfold Mempool.task
      dsimp only
      split
      · exact h
      · next w found =>
          split
          · have waiting := List.mem_of_find?_eq_some found
            refine h.later (fun _ mem => mem) (fun w' mem => h.waiting w' (List.mem_filter.mp mem).1) rfl fun b mem => ?_
            cases List.mem_singleton.mp mem
            exact h.waiting w waiting
          · exact h
  | cancel id =>
      unfold Mempool.task
      dsimp only
      split
      · exact h
      · split
        · exact h.still (fun _ mem => mem) (fun w mem => (List.mem_filter.mp mem).1) rfl
        · exact h
  | fail id => exact h.still (fun _ mem => mem) (fun w mem => (List.mem_filter.mp mem).1) rfl
  | tick now =>
      unfold Mempool.task
      dsimp only
      split
      · exact h
      · exact h.later (fun _ mem => mem) h.waiting rfl fun b mem => by cases List.mem_singleton.mp mem
  | client tx | own env | network message env | call call env => exact h

variable [PayloadBincode]

theorem Holds.step (h : m.Holds) (store : Store) (input : MempoolInput) : (m.step store input).1.Holds := by
  have tasks : Holds (if m.synchronizer.alive then m.task store input else m) := by
    split
    · exact h.task store input
    · exact h
  cases input with
  | client tx =>
      show (m.client tx).Holds
      unfold client
      split
      · exact h.later (fun _ mem => mem) h.waiting rfl fun b mem => by cases List.mem_singleton.mp mem
      · exact h.still (fun _ mem => mem) (fun _ mem => mem) rfl
  | own env =>
      unfold Mempool.step
      dsimp only
      split
      · exact h
      · next payload rest _ =>
          have popped : Holds { m with own := rest } := h.still (fun _ mem => mem) (fun _ mem => mem) rfl
          exact popped.exec env none (.of_logs (logs_handleMessage (.ownPayload payload)).final)
  | network message env => exact h.exec env none (.of_logs (logs_handleMessage message).final)
  | call call env => exact h.exec env call.cleaned (puts_handleConsensus call.message)
  | inner now | finish id | cancel id | fail id | tick now => exact tasks

end
end Mempool

theorem Host.holds_run [Crypto] [Bincode] [Mempool.PayloadBincode] {host : Host} (h : host.mempool.Holds)
    (inputs : List HostInput) : (host.run inputs).mempool.Holds := by
  induction inputs generalizing host with
  | nil => exact h
  | cons input rest ih =>
      apply ih
      cases input with
      | consensus channel message env => exact h
      | mempool input => exact h.step host.store input

end HotstuffDag
