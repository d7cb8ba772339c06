import HotstuffDag.Proof.PayloadOrigin

/-! # Blocks that wait for payloads

A block waits in the synchronizer of the mempool until its waiter has read what was missing, or a
`Clean` of its height or above drops it. -/

namespace HotstuffDag
open Library
namespace Mempool

/-- Waiters have numbers of their own. -/
structure Synchronizer.Numbered (t : Synchronizer) : Prop where
  issued : ∀ w ∈ t.waiting, w.id < t.created
  distinct : (t.waiting.map Waiter.id).Nodup

namespace Synchronizer
variable {t : Synchronizer} {w w' : Waiter}

theorem numbered_new : new.Numbered := ⟨by simp [new], by simp [new]⟩

variable [Crypto]

theorem Numbered.wait (h : t.Numbered) (missing : List Digest) (block : Block) : (t.wait missing block).Numbered where
  issued := by
    intro w mem
    rcases List.mem_append.mp mem with old | new
    · exact Nat.lt_succ_of_lt (h.issued w old)
    · rw [List.mem_singleton.mp new]
      exact Nat.lt_succ_self _
  distinct := by
    unfold Synchronizer.wait
    rw [List.map_append]
    refine List.nodup_append.mpr ⟨h.distinct, by simp, ?_⟩
    intro id old id' new same
    obtain ⟨w, mem, rfl⟩ := List.mem_map.mp old
    have := h.issued w mem
    simp only [List.map_cons, List.map_nil, List.mem_singleton] at new
    omega

section
omit [Crypto]

theorem Numbered.drop (h : t.Numbered) (id : Nat) : (t.drop id).Numbered where
  issued := fun w mem => h.issued w (List.mem_filter.mp mem).1
  distinct := h.distinct.sublist (List.filter_sublist.map _)

/-- The number of a waiter finds it. -/
theorem Numbered.find (h : t.Numbered) (mem : w ∈ t.waiting) : (t.waiting.find? fun x => x.id = w.id) = some w := by
  cases found : t.waiting.find? fun x => x.id = w.id with
  | none => exact absurd (List.find?_eq_none.mp found w mem) (by simp)
  | some w' =>
      have same : w'.id = w.id := by simpa using List.find?_some found
      rw [List.inj_on_of_nodup_map h.distinct (List.mem_of_find?_eq_some found) mem same]

end
end Synchronizer

variable [Crypto]
variable {m m' : Mempool} {store : Store} {B : Block} {w : Waiter}

/-- The block is pending, and the waiter is the one that waits for it. -/
structure Waits (m : Mempool) (B : Block) (w : Waiter) : Prop where
  waiting : w ∈ m.synchronizer.waiting
  block : w.block = B
  pending : m.synchronizer.pending.get? B.digest = some (B.height, w.id)

theorem Waits.not_cancelled (h : m.Waits B w) : m.synchronizer.cancelled w = false := by
  unfold Synchronizer.cancelled
  rw [List.all_eq_false]
  exact ⟨_, Map.mem_values h.pending, by simp⟩

/-! ## Steps -/

theorem numbered_sync (h : m.synchronizer.Numbered) (missing : List Digest) (block : Block) (now : Nat) :
    (m.sync missing block now).synchronizer.Numbered := by
  have waited := h.wait missing block
  unfold sync
  dsimp only
  split
  · exact h
  · split
    · exact ⟨waited.issued, waited.distinct⟩
    · unfold sendRequest
      split <;> exact ⟨waited.issued, waited.distinct⟩

theorem numbered_task (h : m.synchronizer.Numbered) (store : Store) (input : MempoolInput) :
    (m.task store input).synchronizer.Numbered := by
  cases input with
  | inner now =>
      unfold task
      cases m.inner with
      | nil => exact h
      | cons entry rest =>
          obtain ⟨message, cause⟩ := entry
          cases message with
          | sync missing block => exact numbered_sync (m := { m with inner := rest }) h missing block now
          | clean round => exact ⟨h.issued, h.distinct⟩
  | finish id =>
      unfold task
      dsimp only
      split
      · exact h
      · next w _ =>
          split
          · exact ⟨(h.drop w.id).issued, (h.drop w.id).distinct⟩
          · exact h
  | cancel id =>
      unfold task
      dsimp only
      split
      · exact h
      · split
        · exact h.drop id
        · exact h
  | fail id => exact h.drop id
  | tick now =>
      unfold task
      dsimp only
      split <;> exact h
  | client tx | own env | network message env | call call env => exact h

omit [Crypto] in
theorem exec_synchronizer (store : Store) (env : Env) (cause : Option Block) (x : M Unit) :
    (m.exec store env cause x).1.synchronizer = m.synchronizer := by
  unfold exec
  split <;> rfl

/-- Only the task changes the synchronizer. -/
theorem step_synchronizer [Mempool.PayloadBincode] (store : Store) (input : MempoolInput) :
    (m.step store input).1.synchronizer = m.synchronizer ∨
      m.synchronizer.alive = true ∧ (m.step store input).1 = m.task store input := by
  have tasks : (if m.synchronizer.alive then m.task store input else m).synchronizer = m.synchronizer ∨
      m.synchronizer.alive = true ∧ (if m.synchronizer.alive then m.task store input else m) = m.task store input := by
    cases alive : m.synchronizer.alive with
    | false => exact .inl rfl
    | true => exact .inr ⟨rfl, rfl⟩
  cases input with
  | client tx =>
      left
      change (m.client tx).synchronizer = m.synchronizer
      unfold client
      split <;> rfl
  | own env =>
      left
      unfold step
      dsimp only
      split
      · rfl
      · exact exec_synchronizer (m := { m with own := _ }) store env none _
  | network message env | call call env => exact .inl (exec_synchronizer store env _ _)
  | inner now | finish id | cancel id | fail id | tick now => exact tasks

theorem numbered_step [Mempool.PayloadBincode] (h : m.synchronizer.Numbered) (store : Store) (input : MempoolInput) :
    (m.step store input).1.synchronizer.Numbered := by
  rcases step_synchronizer (m := m) store input with same | ⟨-, task⟩
  · rw [same]
    exact h
  · rw [task]
    exact numbered_task h store input

theorem Waits.congr (h : m.Waits B w) (same : m'.synchronizer = m.synchronizer) : m'.Waits B w := by
  obtain ⟨waiting, block, pending⟩ := h
  exact ⟨same ▸ waiting, block, same ▸ pending⟩

theorem Waits.sync (h : m.Waits B w) (missing : List Digest) (block : Block) (now : Nat) :
    (m.sync missing block now).Waits B w := by
  unfold Mempool.sync
  dsimp only
  split
  · exact h
  · next fresh =>
      have other : block.digest ≠ B.digest := by
        intro same
        rw [same, Map.contains, h.pending] at fresh
        exact fresh rfl
      have pending := (Map.get?_insert_ne m.synchronizer.pending (block.height, m.synchronizer.created) other).trans h.pending
      have waiting : w ∈ m.synchronizer.waiting ++ [⟨m.synchronizer.created, missing, block⟩] :=
        List.mem_append_left _ h.waiting
      split
      · exact ⟨waiting, h.block, pending⟩
      · unfold sendRequest
        split <;> exact ⟨waiting, h.block, pending⟩

theorem Waits.clean (h : m.Waits B w) {round : SeqNumber} (below : round < B.height) :
    { m with synchronizer := m.synchronizer.clean round }.Waits B w := by
  refine ⟨h.waiting, h.block, ?_⟩
  refine (Map.get?_retainValues _ _ _).trans ?_
  rw [h.pending]
  simpa [Option.filter] using below

theorem Waits.drop (h : m.Waits B w) {id : Nat} (other : id ≠ w.id) :
    { m with synchronizer := m.synchronizer.drop id }.Waits B w :=
  ⟨List.mem_filter.mpr ⟨h.waiting, by simpa using Ne.symm other⟩, h.block, h.pending⟩

/-- A step of the task ends the wait only with a `LoopBack`, a failed read, or a `Clean` that is high
enough. -/
theorem Waits.task (h : m.Waits B w) (numbered : m.synchronizer.Numbered) (store : Store) (input : MempoolInput) :
    (m.task store input).Waits B w ∨
      (∃ B', B'.digest = B.digest ∧ (m.task store input).log = m.log ++ [.loopBack B']) ∨ input = .fail w.id ∨
        ∃ now r cause rest, input = .inner now ∧ m.inner = (.clean r, cause) :: rest ∧ ¬ r < B.height := by
  cases input with
  | inner now =>
      unfold Mempool.task
      cases queue : m.inner with
      | nil => exact .inl h
      | cons entry rest =>
          obtain ⟨message, cause⟩ := entry
          have popped : { m with inner := rest }.Waits B w := h.congr rfl
          cases message with
          | sync missing block => exact .inl (popped.sync missing block now)
          | clean round =>
              by_cases below : round < B.height
              · exact .inl (popped.clean below)
              · exact .inr (.inr (.inr ⟨now, round, cause, rest, rfl, rfl, below⟩))
  | finish id =>
      unfold Mempool.task
      dsimp only
      split
      · exact .inl h
      · next w' found =>
          have mem := List.mem_of_find?_eq_some found
          split
          · by_cases same : w'.block.digest = B.digest
            · exact .inr (.inl ⟨w'.block, same, rfl⟩)
            · have other : w'.id ≠ w.id := by
                intro same'
                have same' := List.inj_on_of_nodup_map numbered.distinct mem h.waiting same'
                exact same (by rw [same', h.block])
              exact .inl ⟨(h.drop other).waiting, h.block, (Map.get?_remove_ne _ same).trans h.pending⟩
          · exact .inl h
  | cancel id =>
      unfold Mempool.task
      dsimp only
      split
      · exact .inl h
      · next w' found =>
          have named : w'.id = id := by simpa using List.find?_some found
          split
          · next cancelled =>
              have other : id ≠ w.id := by
                intro same
                have alive := h.not_cancelled
                unfold Synchronizer.cancelled at cancelled alive
                rw [named, same, alive] at cancelled
                contradiction
              exact .inl (h.drop other)
          · exact .inl h
  | fail id =>
      by_cases same : id = w.id
      · exact .inr (.inr (.inl (by rw [same])))
      · exact .inl (h.drop same)
  | tick now =>
      unfold Mempool.task
      dsimp only
      split
      · exact .inl h
      · exact .inl (h.congr rfl)
  | client tx | own env | network message env | call call env => exact .inl h

/-- A waiter that has all it waits for hands its block back. -/
theorem Waits.finish [Mempool.PayloadBincode] (h : m.Waits B w) (numbered : m.synchronizer.Numbered)
    (alive : m.synchronizer.alive = true)
    (present : w.missing.all store.contains = true) :
    (m.step store (.finish w.id)).1.log = m.log ++ [.loopBack B] := by
  change (if m.synchronizer.alive then m.task store (.finish w.id) else m).log = _
  rw [if_pos alive]
  unfold Mempool.task
  simp only [numbered.find h.waiting, if_pos present, h.block]

end Mempool

variable [Crypto] [Bincode]

namespace Host
variable {host : Host} {inputs : List HostInput} {B c : Block} {w : Mempool.Waiter}

/-- The committed block whose `Clean` the synchronizer handles in a step. -/
def handlesClean (host : Host) : HostInput → List Block
  | .mempool (.inner _) =>
      match host.mempool.synchronizer.alive, host.mempool.inner with
      | true, (.clean _, some c) :: _ => [c]
      | _, _ => []
  | _ => []

/-- The committed blocks whose `Clean` the synchronizer handles in a run. -/
def cleaned [Mempool.PayloadBincode] (host : Host) : List HostInput → List Block
  | [] => []
  | input :: rest => host.handlesClean input ++ (host.step input).cleaned rest

/-- The mempool logs the event during the run. -/
def Logs [Mempool.PayloadBincode] (host : Host) (inputs : List HostInput) (e : Mempool.Event) : Prop :=
  ∃ more, (host.run inputs).mempool.log = host.mempool.log ++ more ∧ e ∈ more

theorem Logs.mem [Mempool.PayloadBincode] {e : Mempool.Event} (h : host.Logs inputs e) : e ∈ (host.run inputs).mempool.log := by
  obtain ⟨more, log, mem⟩ := h
  rw [log]
  exact List.mem_append_right _ mem

/-- What every run of a mempool keeps. -/
structure Ready (host : Host) : Prop where
  numbered : host.mempool.synchronizer.Numbered
  caused : ∀ entry ∈ host.mempool.inner, Mempool.Caused entry

theorem ready_start (core : Core) (env : Env) (name : PublicKey) (committee : Mempool.Committee)
    (parameters : Mempool.Parameters) : (start core env (.new name committee parameters)).Ready :=
  ⟨Mempool.Synchronizer.numbered_new, fun _ mem => absurd mem List.not_mem_nil⟩

theorem Ready.step [Mempool.PayloadBincode] (h : host.Ready) (input : HostInput) : (host.step input).Ready := by
  cases input with
  | consensus channel message env => exact ⟨h.numbered, h.caused⟩
  | mempool input =>
      have grows := Mempool.step_grows (m := host.mempool) host.store input
      exact ⟨Mempool.numbered_step h.numbered _ _, fun entry mem => (grows.inner entry mem).elim (h.caused entry) id⟩

theorem Ready.run [Mempool.PayloadBincode] (h : host.Ready) (inputs : List HostInput) : (host.run inputs).Ready := by
  induction inputs generalizing host with
  | nil => exact h
  | cons input rest ih => exact ih (h.step input)

theorem step_log [Mempool.PayloadBincode] (host : Host) (input : HostInput) :
    ∃ more, (host.step input).mempool.log = host.mempool.log ++ more := by
  cases input with
  | consensus channel message env => exact ⟨[], by simp [step]⟩
  | mempool input =>
      obtain ⟨more, log, -⟩ :=
        ((Mempool.step_grows (m := host.mempool) host.store input).evolves ⟨[], 0, 0, .listed, .listed⟩).log
      exact ⟨more, log⟩

theorem run_log [Mempool.PayloadBincode] (host : Host) (inputs : List HostInput) :
    ∃ more, (host.run inputs).mempool.log = host.mempool.log ++ more := by
  induction inputs generalizing host with
  | nil => exact ⟨[], by simp [run]⟩
  | cons input rest ih =>
      obtain ⟨more, log⟩ := step_log host input
      obtain ⟨more', log'⟩ := ih (host.step input)
      exact ⟨more ++ more', by rw [← List.append_assoc, ← log]; exact log'⟩

theorem Logs.cons [Mempool.PayloadBincode] {input : HostInput} {e : Mempool.Event} (h : (host.step input).Logs inputs e) :
    host.Logs (input :: inputs) e := by
  obtain ⟨more, log⟩ := step_log host input
  obtain ⟨more', log', mem⟩ := h
  exact ⟨more ++ more', by rw [← List.append_assoc, ← log]; exact log', List.mem_append_right _ mem⟩

/-- How the wait of a block may end during a run. -/
theorem Ready.waits [Mempool.PayloadBincode] (ready : host.Ready) (waits : host.mempool.Waits B w) (inputs : List HostInput) :
    (host.run inputs).mempool.Waits B w ∨ (∃ B', B'.digest = B.digest ∧ host.Logs inputs (.loopBack B')) ∨
      .mempool (.fail w.id) ∈ inputs ∨ ∃ c ∈ host.cleaned inputs, ¬ c.height < B.height := by
  induction inputs generalizing host with
  | nil => exact .inl waits
  | cons input rest ih =>
      have next (waits' : (host.step input).mempool.Waits B w) :
          (host.run (input :: rest)).mempool.Waits B w ∨
            (∃ B', B'.digest = B.digest ∧ host.Logs (input :: rest) (.loopBack B')) ∨
            .mempool (.fail w.id) ∈ input :: rest ∨ ∃ c ∈ host.cleaned (input :: rest), ¬ c.height < B.height := by
        rcases ih (ready.step input) waits' with still | ⟨B', digest, logs⟩ | failed | ⟨c, cleans, high⟩
        · exact .inl still
        · exact .inr (.inl ⟨B', digest, logs.cons⟩)
        · exact .inr (.inr (.inl (List.mem_cons_of_mem _ failed)))
        · exact .inr (.inr (.inr ⟨c, List.mem_append_right _ cleans, high⟩))
      cases input with
      | consensus channel message env => exact next waits
      | mempool input =>
          rcases Mempool.step_synchronizer (m := host.mempool) host.store input with same | ⟨alive, task⟩
          · exact next (waits.congr same)
          · rcases waits.task ready.numbered host.store input with still | ⟨B', digest, log⟩ | rfl | high
            · refine next ?_
              change (host.mempool.step host.store input).1.Waits B w
              rwa [task]
            · obtain ⟨more, log'⟩ := run_log (host.step (.mempool input)) rest
              refine .inr (.inl ⟨B', digest, .loopBack B' :: more, ?_, List.mem_cons_self⟩)
              refine log'.trans ?_
              change (host.mempool.step host.store input).1.log ++ more = _
              rw [task, log, List.append_assoc]
              rfl
            · exact .inr (.inr (.inl List.mem_cons_self))
            · obtain ⟨now, r, cause, queue, rfl, head, high⟩ := high
              have queued : (.clean r, cause) ∈ host.mempool.inner := by
                rw [head]
                exact List.mem_cons_self
              obtain ⟨c, rfl, rfl⟩ := ready.caused _ queued r rfl
              have handled : c ∈ host.handlesClean (.mempool (.inner now)) := by
                unfold handlesClean
                simp only [alive, head, List.mem_singleton]
              exact .inr (.inr (.inr ⟨c, List.mem_append_left _ handled, high⟩))

/-- After the run the block waits for a waiter that will hand it back, unless it has been handed back,
a read has failed or its own chain has committed at its height. -/
def WaitsOut [Mempool.PayloadBincode] (host : Host) (inputs : List HostInput) (B : Block) (w : Mempool.Waiter) : Prop :=
  ((host.run inputs).mempool.Waits B w ∧ (host.run inputs).mempool.synchronizer.cancelled w = false ∧
    ((host.run inputs).mempool.synchronizer.alive = true → w.missing.all (host.run inputs).store.contains = true →
      ((host.run inputs).step (.mempool (.finish w.id))).mempool.log =
        (host.run inputs).mempool.log ++ [.loopBack B])) ∨
  (∃ B', B'.digest = B.digest ∧ host.Logs inputs (.loopBack B')) ∨ .mempool (.fail w.id) ∈ inputs ∨
    ∃ c ∈ host.cleaned inputs, c.author = B.author ∧ ¬ c.height < B.height

/-- A block waits for its payloads while the other chains commit below its height. -/
theorem waits_for_payloads [Mempool.PayloadBincode] (core : Core) (env : Env) (name : PublicKey) (committee : Mempool.Committee)
    (parameters : Mempool.Parameters) (earlier : List HostInput) (B : Block) (w : Mempool.Waiter)
    (waits : ((start core env (.new name committee parameters)).run earlier).mempool.Waits B w) (inputs : List HostInput)
    (below : ∀ c ∈ ((start core env (.new name committee parameters)).run earlier).cleaned inputs,
      c.author ≠ B.author → c.height < B.height) :
    ((start core env (.new name committee parameters)).run earlier).WaitsOut inputs B w := by
  have ready := (ready_start core env name committee parameters).run earlier
  rcases ready.waits waits inputs with still | logs | failed | ⟨c, cleans, high⟩
  · have numbered := (ready.run inputs).numbered
    exact .inl ⟨still, still.not_cancelled, fun alive present => still.finish numbered alive present⟩
  · exact .inr (.inl logs)
  · exact .inr (.inr (.inl failed))
  · refine .inr (.inr (.inr ⟨c, cleans, ?_, high⟩))
    by_contra other
    exact high (below c cleans other)

end Host
end HotstuffDag

namespace HotstuffDag.Sample
open Library

def verifies (block : Block) : HostInput := .mempool (.call (.verify block) mempoolEnv)

def receives (block : Block) (status : PayloadStatus) : HostInput :=
  .consensus .core (.propose block) { env with status := status }

/-- A block whose payload is missing is proposed. -/
def missingPayload (block : Block) : List HostInput := [verifies block, receives block .wait, .mempool (.inner 0)]

def leaderPayload : Payload := Payload.new [[7]] (key 1)

/-- Three blocks of the leader: the third commits the first. -/
def leaderBlock : Block := Block.new QC.genesis (key 1) 1 0 [leaderPayload.digest] []

def leaderBlocks : List Block := [leaderBlock, above leaderBlock, above (above leaderBlock)]

def latePayload : Payload := Payload.new [[8]] (key 3)

def lateBlock : Block := Block.new QC.genesis (key 3) 1 0 [latePayload.digest] []

def lateWaiter : Mempool.Waiter := ⟨0, [latePayload.digest], lateBlock⟩

def loopBacks (l : List Mempool.Event) : List Block :=
  l.filterMap fun
    | .loopBack b => some b
    | _ => none

/-- The block waits, and the leader commits. -/
def waitingHost : Host := (host 2).run (others leaderPayload :: missingPayload lateBlock)

def leaderCommits : List HostInput :=
  leaderBlocks.flatMap (fun b => [verifies b, receives b .accept]) ++
    [.mempool (.call (.cleanup leaderBlock) mempoolEnv), .mempool (.inner 1), .mempool (.cancel 0), others latePayload,
      .mempool (.finish 0)]

theorem leader_cancels_wait :
    waitingHost.mempool.Waits lateBlock lateWaiter ∧ waitingHost.cleaned leaderCommits = [leaderBlock] ∧
      Event.mempool (.cleanup leaderBlock.payload leaderBlock.height) ∈ (waitingHost.run leaderCommits).node.log ∧
      (waitingHost.run leaderCommits).store.contains latePayload.digest = true ∧
      (waitingHost.run leaderCommits).mempool.synchronizer.waiting = [] ∧
      (waitingHost.run leaderCommits).mempool.synchronizer.pending.get? lateBlock.digest = none ∧
      loopBacks (waitingHost.run leaderCommits).mempool.log = [] := by
  refine ⟨⟨?_, rfl, ?_⟩, ?_, ?_, ?_, ?_, ?_, ?_⟩ <;> decide +kernel

theorem mem_loopBacks {l : List Mempool.Event} {b : Block} (h : .loopBack b ∈ l) : b ∈ loopBacks l :=
  List.mem_filterMap.mpr ⟨_, h, rfl⟩

/-- A block above the block that the leader commits. -/
def laterBlock : Block := Block.new (certify (firstBlock 3) [1, 2, 3]) (key 3) 2 0 [latePayload.digest] []

def laterWaiter : Mempool.Waiter := ⟨0, [latePayload.digest], laterBlock⟩

def lowerCommit : List HostInput := [.mempool (.call (.cleanup leaderBlock) mempoolEnv), .mempool (.inner 1)]

def laterHost : Host := (host 2).run (missingPayload laterBlock)

theorem lower_commit_waits : (laterHost.run lowerCommit).mempool.Waits laterBlock laterWaiter := by
  have waits : laterHost.mempool.Waits laterBlock laterWaiter := by
    refine ⟨?_, rfl, ?_⟩ <;> decide +kernel
  have cleaned : laterHost.cleaned lowerCommit = [leaderBlock] := by decide +kernel
  have unsent : loopBacks (laterHost.run lowerCommit).mempool.log = [] := by decide +kernel
  have below : ∀ c ∈ laterHost.cleaned lowerCommit, c.author ≠ laterBlock.author → c.height < laterBlock.height := by
    rw [cleaned]
    decide
  have outcome : laterHost.WaitsOut lowerCommit laterBlock laterWaiter :=
    Host.waits_for_payloads (core 2) env (key 2) mempoolCommittee ⟨100, 10000, 500⟩ (missingPayload laterBlock)
      laterBlock laterWaiter waits lowerCommit below
  rcases outcome with still | ⟨B', -, logs⟩ | failed | ⟨c, mem, author, -⟩
  · exact still.1
  · have sent : B' ∈ loopBacks (laterHost.run lowerCommit).mempool.log := mem_loopBacks logs.mem
    rw [unsent] at sent
    exact absurd sent List.not_mem_nil
  · simp [lowerCommit] at failed
  · rw [cleaned] at mem
    rw [List.mem_singleton.mp mem] at author
    exact absurd author (by decide)

end HotstuffDag.Sample
