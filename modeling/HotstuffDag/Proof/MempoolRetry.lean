import HotstuffDag.Proof.Availability
import HotstuffDag.Proof.MempoolWait

/-! # What the retry timer asks for

A block that waits is asked for as long as the keys of its missing payloads stay in `requests`. Blocks may share a
payload, and a key stays under the height of the block that asked first. -/

namespace HotstuffDag
open Library

namespace Mempool
open Library.Exec

/-- The payloads that a block does not miss are there. -/
def Covered (store : Store) (missing : List Digest) (block : Block) : Prop :=
  ∀ d ∈ block.payload, d ∈ missing ∨ store.contains d = true

theorem Covered.mono {store store' : Store} {missing : List Digest} {block : Block} (h : Covered store missing block)
    (kept : ∀ d, store.contains d = true → store'.contains d = true) : Covered store' missing block := by
  intro d mem
  exact (h d mem).imp_right (kept d)

/-! ## What is sent to the synchronizer -/

/-- How the core goes on: it offers the synchronizer blocks whose other payloads are there. -/
structure Offers (s s' : State) : Prop where
  kept : ∀ d, s.store.contains d = true → s'.store.contains d = true
  log : ∃ more, s'.log = s.log ++ more ∧ ∀ missing block, .inner (.sync missing block) ∈ more → Covered s'.store missing block

section
variable {s s' : State} {α β : Type} {Q : β → State → Prop}

theorem Offers.silent (kept : ∀ d, s.store.contains d = true → s'.store.contains d = true) (log : s'.log = s.log) : Offers s s' :=
  ⟨kept, [], by rw [log, List.append_nil], fun _ _ mem => absurd mem List.not_mem_nil⟩

instance : Std.Refl Offers := ⟨fun _ => .silent (fun _ h => h) rfl⟩

instance : IsTrans State Offers where
  trans s s' s'' h h' := by
    obtain ⟨more, log, covered⟩ := h.log
    obtain ⟨more', log', covered'⟩ := h'.log
    refine ⟨fun d mem => h'.kept d (h.kept d mem), more ++ more', by rw [log', log, List.append_assoc], ?_⟩
    intro missing block mem
    rcases List.mem_append.mp mem with old | new
    · exact (covered missing block old).mono h'.kept
    · exact covered' missing block new

theorem Reads.offers (h : Reads s s') : Offers s s' := .silent (fun _ mem => h.store ▸ mem) h.log

theorem offers_emit {e : Event} (covered : ∀ missing block, e = .inner (.sync missing block) → Covered s.store missing block) :
    Offers s { s with log := s.log ++ [e] } :=
  ⟨fun _ mem => mem, [e], rfl, fun missing block mem => covered missing block (List.mem_singleton.mp mem).symm⟩

theorem Offers.of_logs (kept : ∀ d, s.store.contains d = true → s'.store.contains d = true) (h : Logs Event.blockless s s') :
    Offers s s' := by
  obtain ⟨more, log, each⟩ := h
  exact ⟨kept, more, log, fun missing block mem => (each _ mem).elim⟩

/-- What hands no block over offers nothing. -/
theorem offered_of_logs [Crypto] {x : M Unit} (evolves : Leads (Evolves (fun _ => True) fun _ => True) x s fun _ _ => True)
    (logs : Leads (Logs Event.blockless) x s fun _ _ => True) : Leads Offers x s fun _ _ => True :=
  Leads.of_final (.of_logs evolves.final.kept logs.final)

/-- A block is offered with all the payloads that were not found. -/
theorem offered_verifyPayload (block : Block) : Leads Offers (Core.verifyPayload block) s fun _ _ => True := by
  unfold Core.verifyPayload
  have found := leads_missingDigests (s := s) block.payload HashSet.empty
  have both : Leads Reads (Core.missingDigests block.payload HashSet.empty) s fun missing t => Covered t.store missing.items block := by
    refine found.weaken fun missing t reads result d mem => ?_
    by_cases absent : d ∈ missing
    · exact .inl absent
    · right
      rw [reads.store]
      exact result.2 d mem absent
  refine Leads.bind (both.mono fun _ reads => reads.offers) fun missing t _ covered => ?_
  apply Leads.ite
  · intro _
    exact Leads.pure trivial
  · intro _
    refine Leads.modify (offers_emit fun missing' block' same => ?_) (Leads.pure trivial)
    obtain ⟨rfl, rfl⟩ := SynchronizerMessage.sync.inj (Event.inner.inj same)
    exact covered

theorem offered_handleConsensus [Crypto] (message : ConsensusMempoolMessage) :
    Leads Offers (Core.handleConsensus message) s fun _ _ => True := by
  have evolves : Leads (Evolves (fun _ => True) fun _ => True) (Core.handleConsensus message) s fun _ _ => True :=
    leads_handleConsensus message fun _ _ _ => trivial
  cases message with
  | get max => exact offered_of_logs evolves (logs_get max)
  | verify block =>
      unfold Core.handleConsensus
      refine Leads.bind (leads_attempt (offered_verifyPayload block)) fun result t _ _ => ?_
      exact ⟨offers_emit (by simp), trivial⟩
  | cleanup digests round => exact offered_of_logs evolves (logs_cleanup digests round)

theorem offered_handleMessage [Crypto] [PayloadBincode] (message : MempoolMessage) :
    Leads Offers (Core.handleMessage message) s fun _ _ => True :=
  offered_of_logs (leads_handleMessage message fun _ _ => trivial) (logs_handleMessage message)

end

section
variable {m m' : HotstuffDag.Mempool} {store store' : Store}

/-- What is on its way to the synchronizer. -/
def Queued (m : HotstuffDag.Mempool) (store : Store) : Prop :=
  ∀ missing block cause, (.sync missing block, cause) ∈ m.inner → Covered store missing block

theorem Queued.mono (h : Queued m store) (inner : ∀ entry ∈ m'.inner, entry ∈ m.inner)
    (kept : ∀ d, store.contains d = true → store'.contains d = true) : Queued m' store' := by
  intro missing block cause mem
  exact (h missing block cause (inner _ mem)).mono kept

theorem Queued.exec {env : Env} {cause : Option Block} {x : M Unit} {Q : Unit → State → Prop} (h : Queued m store)
    (offers : Leads Offers x (m.state store env) Q) : Queued (m.exec store env cause x).1 (m.exec store env cause x).2 := by
  rcases exec_cases (m := m) store env cause x with same | ⟨-, same⟩
  · rw [same]
    exact h
  · rw [same]
    obtain ⟨kept, more, log, covered⟩ := offers.final
    intro missing block cause' mem
    rcases mem_handled_inner log mem with old | ⟨sent, -⟩
    · exact (h missing block cause' old).mono kept
    · exact covered missing block sent

theorem Queued.step [Crypto] [PayloadBincode] (h : Queued m store) (input : MempoolInput) :
    Queued (m.step store input).1 (m.step store input).2 := by
  have tasks : Queued (if m.synchronizer.alive then m.task store input else m) store := by
    split
    · exact h.mono (task_inner store input) fun _ mem => mem
    · exact h
  cases input with
  | client tx =>
      have inner : ∀ entry ∈ (m.client tx).inner, entry ∈ m.inner := by
        unfold client
        split <;> exact fun _ mem => mem
      exact h.mono inner fun _ mem => mem
  | own env =>
      unfold HotstuffDag.Mempool.step
      dsimp only
      split
      · exact h
      · rename_i payload rest _
        exact Queued.exec (m := { m with own := rest }) h (offered_handleMessage _)
  | network message env => exact h.exec (offered_handleMessage message)
  | call call env => exact h.exec (offered_handleConsensus call.message)
  | inner now | finish id | cancel id | fail id | tick now => exact tasks

/-! ## A turn of the synchronizer -/

/-- What becomes of the synchronizer when its task takes a turn. -/
inductive Turns [Crypto] (m : HotstuffDag.Mempool) (store : Store) (input : MempoolInput) : Synchronizer → Prop
  | quiet {t} (pending : t.pending = m.synchronizer.pending) (requests : t.requests = m.synchronizer.requests)
      (created : t.created = m.synchronizer.created) (waiting : ∀ w ∈ t.waiting, w ∈ m.synchronizer.waiting) : Turns m store input t
  | sync {missing block cause now alive} (queued : (.sync missing block, cause) ∈ m.inner)
      (fresh : m.synchronizer.pending.contains block.digest = false) : Turns m store input
        { (m.synchronizer.wait missing block).request (m.synchronizer.unrequested missing) block.height now with alive := alive }
  | clean {r cause now rest} (handled : input = .inner now) (head : m.inner = (.clean r, cause) :: rest) :
      Turns m store input (m.synchronizer.clean r)
  | finish {w} (waiting : w ∈ m.synchronizer.waiting) (present : w.missing.all store.contains = true) :
      Turns m store input (m.synchronizer.finish w)

theorem turns_same [Crypto] {input : MempoolInput} : Turns m store input m.synchronizer := .quiet rfl rfl rfl fun _ mem => mem

theorem turns_drop [Crypto] {input : MempoolInput} (id : Nat) : Turns m store input (m.synchronizer.drop id) :=
  .quiet rfl rfl rfl fun _ mem => (List.mem_filter.mp mem).1

theorem task_turns [Crypto] (store : Store) (input : MempoolInput) : Turns m store input (m.task store input).synchronizer := by
  cases input with
  | inner now =>
      unfold task
      cases queue : m.inner with
      | nil => exact turns_same
      | cons entry rest =>
          obtain ⟨message, cause⟩ := entry
          cases message with
          | clean round => exact .clean rfl queue
          | sync missing block =>
              have queued : (.sync missing block, cause) ∈ m.inner := by
                rw [queue]
                exact List.mem_cons_self
              show Turns _ _ _ (HotstuffDag.Mempool.sync { m with inner := rest } missing block now).synchronizer
              unfold HotstuffDag.Mempool.sync
              dsimp only
              split
              · exact turns_same
              · rename_i absent
                have fresh := Bool.eq_false_iff.mpr absent
                split
                · exact @Turns.sync _ _ _ _ _ _ _ _ m.synchronizer.alive queued fresh
                · unfold sendRequest
                  split
                  · exact @Turns.sync _ _ _ _ _ _ _ _ m.synchronizer.alive queued fresh
                  · exact .sync queued fresh
  | finish id =>
      unfold task
      dsimp only
      split
      · exact turns_same
      · rename_i w found
        split
        · rename_i present
          exact .finish (List.mem_of_find?_eq_some found) present
        · exact turns_same
  | cancel id =>
      unfold task
      dsimp only
      split
      · exact turns_same
      · split
        · exact turns_drop id
        · exact turns_same
  | fail id => exact turns_drop id
  | tick now =>
      unfold task
      dsimp only
      split <;> exact turns_same
  | client tx | own env | network message env | call call env => exact turns_same

/-- The synchronizer and the waiters that it has had. -/
structure Tracked (t : Synchronizer) (store : Store) (ws : List Waiter) : Prop where
  waiting : ∀ w ∈ t.waiting, w ∈ ws
  issued : ∀ w ∈ ws, w.id < t.created
  distinct : ∀ w ∈ ws, ∀ w' ∈ ws, w.id = w'.id → w = w'
  covered : ∀ w ∈ ws, Covered store w.missing w.block

/-- What the blocks that are pending miss is asked for. -/
def Asked [Crypto] (t : Synchronizer) (store : Store) (ws : List Waiter) : Prop :=
  ∀ w ∈ ws, t.pending.get? w.block.digest = some (w.block.height, w.id) →
    ∀ d ∈ w.block.payload, store.contains d = false → t.requests.contains d = true

variable {t t' : Synchronizer} {ws : List Waiter} {input : MempoolInput}

theorem Tracked.old (h : Tracked t store ws) (created : t'.created = t.created) (waiting : ∀ w ∈ t'.waiting, w ∈ t.waiting) :
    Tracked t' store (ws ++ t'.waiting) := by
  have among : ∀ w ∈ ws ++ t'.waiting, w ∈ ws := by
    intro w mem
    exact (List.mem_append.mp mem).elim id fun new => h.waiting w (waiting w new)
  constructor
  · intro w mem
    exact List.mem_append_right _ mem
  · intro w mem
    rw [created]
    exact h.issued w (among w mem)
  · intro w mem w' mem'
    exact h.distinct w (among w mem) w' (among w' mem')
  · intro w mem
    exact h.covered w (among w mem)

theorem Tracked.turn [Crypto] (h : Tracked m.synchronizer store ws) (queued : Queued m store) (turns : Turns m store input t') :
    Tracked t' store (ws ++ t'.waiting) := by
  cases turns with
  | quiet pending requests created waiting => exact h.old created waiting
  | clean handled head => exact h.old rfl fun _ mem => mem
  | finish waiting present => exact h.old rfl fun _ mem => (List.mem_filter.mp mem).1
  | @sync missing block cause now alive mem fresh =>
      have among : ∀ w ∈ ws ++ (m.synchronizer.waiting ++ [⟨m.synchronizer.created, missing, block⟩]),
          w ∈ ws ∨ w = ⟨m.synchronizer.created, missing, block⟩ := by
        intro w mem
        rcases List.mem_append.mp mem with old | new
        · exact .inl old
        · exact (List.mem_append.mp new).imp (h.waiting w) List.mem_singleton.mp
      constructor
      · intro w mem
        exact List.mem_append_right _ mem
      · intro w mem
        show w.id < m.synchronizer.created + 1
        rcases among w mem with old | rfl
        · exact Nat.lt_succ_of_lt (h.issued w old)
        · exact Nat.lt_succ_self _
      · intro w mem w' mem' same
        rcases among w mem with old | rfl
        · rcases among w' mem' with old' | rfl
          · exact h.distinct w old w' old' same
          · exact absurd same (Nat.ne_of_lt (h.issued w old))
        · rcases among w' mem' with old' | rfl
          · exact absurd same.symm (Nat.ne_of_lt (h.issued w' old'))
          · rfl
      · intro w mem'
        rcases among w mem' with old | rfl
        · exact h.covered w old
        · exact queued missing block cause mem

theorem Synchronizer.requests_contains (t : Synchronizer) (missing : List Digest) (round : SeqNumber) (now : Nat) (d : Digest) :
    (t.request (t.unrequested missing) round now).requests.contains d = true ↔ d ∈ missing ∨ t.requests.contains d = true := by
  refine (Map.contains_foldl_insert (fun _ => (round, now)) _ _ _).trans ?_
  unfold Synchronizer.unrequested
  rw [List.mem_filter]
  cases t.requests.contains d <;> simp

theorem Tracked.mono (h : Tracked t store ws) (kept : ∀ d, store.contains d = true → store'.contains d = true) : Tracked t store' ws :=
  ⟨h.waiting, h.issued, h.distinct, fun w mem => (h.covered w mem).mono kept⟩

theorem Asked.mono [Crypto] (h : Asked t store ws) (kept : ∀ d, store.contains d = true → store'.contains d = true) :
    Asked t store' ws := by
  intro w mem entry d listed absent
  apply h w mem entry d listed
  by_contra there
  rw [kept d (Bool.not_eq_false _ ▸ there)] at absent
  contradiction

/-- A `Clean` spares the keys that the blocks above it miss. -/
def Spares [Crypto] (t : Synchronizer) (store : Store) (ws : List Waiter) (r : SeqNumber) : Prop :=
  ∀ w ∈ ws, t.pending.get? w.block.digest = some (w.block.height, w.id) → r < w.block.height →
    ∀ d ∈ w.block.payload, store.contains d = false → ∀ height time, t.requests.get? d = some (height, time) → r < height

theorem Asked.turn [Crypto] (h : Asked m.synchronizer store ws) (tracked : Tracked m.synchronizer store ws) (queued : Queued m store)
    (spares : ∀ now r cause rest, input = .inner now → m.inner = (.clean r, cause) :: rest → Spares m.synchronizer store ws r)
    (turns : Turns m store input t') : Asked t' store (ws ++ t'.waiting) := by
  cases turns with
  | quiet pending requests created waiting =>
      intro w mem entry d listed absent
      rw [pending] at entry
      rw [requests]
      have old : w ∈ ws := (List.mem_append.mp mem).elim id fun new => tracked.waiting w (waiting w new)
      exact h w old entry d listed absent
  | @clean r cause now rest handled head =>
      intro w mem entry d listed absent
      have old : w ∈ ws := (List.mem_append.mp mem).elim id (tracked.waiting w)
      have filtered := (Map.get?_retainValues _ _ _).symm.trans entry
      obtain ⟨before, above⟩ := Option.filter_eq_some_iff.mp filtered
      have above : r < w.block.height := of_decide_eq_true above
      obtain ⟨⟨height, time⟩, found⟩ := Option.isSome_iff_exists.mp (h w old before d listed absent)
      have stays := spares now r cause rest handled head w old before above d listed absent height time found
      show ((m.synchronizer.requests.retainValues fun entry => entry.1 > r).get? d).isSome = true
      rw [Map.get?_retainValues, found, Option.filter_some, if_pos (decide_eq_true stays)]
      rfl
  | @finish w' waiting present =>
      intro w mem entry d listed absent
      have old : w ∈ ws := (List.mem_append.mp mem).elim id fun new => tracked.waiting w (List.mem_filter.mp new).1
      have entry := (Map.get?_remove _ _ _).symm.trans entry
      split at entry
      · contradiction
      · -- The payloads of the finished block are all there.
        have other : d ∉ w'.block.payload := by
          intro shared
          rcases tracked.covered w' (tracked.waiting w' waiting) d shared with missed | there
          · rw [List.all_eq_true.mp present d missed] at absent
            contradiction
          · rw [there] at absent
            contradiction
        show ((w'.block.payload.foldl Map.remove m.synchronizer.requests).get? d).isSome = true
        rw [Map.get?_foldl_remove _ _ other]
        exact h w old entry d listed absent
  | @sync missing block cause now alive mem fresh =>
      intro w among entry d listed absent
      apply (Synchronizer.requests_contains _ _ _ _ _).mpr
      have entry := (Map.get?_insert _ _ _ _).symm.trans entry
      have either : w ∈ ws ∨ w = ⟨m.synchronizer.created, missing, block⟩ := by
        rcases List.mem_append.mp among with old | new
        · exact .inl old
        · exact (List.mem_append.mp new).imp (tracked.waiting w) List.mem_singleton.mp
      rcases either with old | rfl
      · split at entry
        · have number : m.synchronizer.created = w.id := congrArg Prod.snd (Option.some.inj entry)
          exact absurd number (Nat.ne_of_gt (tracked.issued w old))
        · exact .inr (h w old entry d listed absent)
      · rcases queued missing block cause mem d listed with missed | there
        · exact .inl missed
        · rw [there] at absent
          contradiction

end

end Mempool

/-! ## Runs -/

section
variable [Bincode] {store : Store}

/-- What was stored stays. -/
theorem storeInvariant [Crypto] (ok : Input → Prop) (store : Store) :
    Invariant ok fun _ k _ => ∀ d, store.contains d = true → k.store.contains d = true where
  act := by
    intro s s' names act h d mem
    rcases act.store with same | ⟨b, -, -, held⟩
    · rw [same]
      exact h d mem
    · rw [held, Map.contains_insert, h d mem, Bool.or_true]
  blind := fun _ _ h => h
  makePayload := fun _ h => h
  storePayload := by
    intro v k l payload _ h d mem
    show (k.store.insert _ _).contains d = true
    rw [Map.contains_insert, h d mem, Bool.or_true]

namespace Host
variable {host : Host} {inputs : List HostInput} {input : HostInput}

/-- The waiters that the synchronizer of the mempool has in a run. -/
def waited [Crypto] [Mempool.PayloadBincode] (host : Host) : List HostInput → List Mempool.Waiter
  | [] => host.mempool.synchronizer.waiting
  | input :: rest => host.mempool.synchronizer.waiting ++ (host.step input).waited rest

/-- After the run the block is pending: its entry is that of a waiter that was made for it. -/
def Pends [Crypto] [Mempool.PayloadBincode] (host : Host) (inputs : List HostInput) (B : Block) : Prop :=
  ∃ w ∈ host.waited inputs, w.block = B ∧
    (host.run inputs).mempool.synchronizer.pending.get? B.digest = some (B.height, w.id)

/-- What a pending block misses is a key of `requests`. -/
def Retries [Crypto] [Mempool.PayloadBincode] (host : Host) (inputs : List HostInput) : Prop :=
  ∀ B, host.Pends inputs B → ∀ d ∈ B.payload, (host.run inputs).store.contains d = false →
    (host.run inputs).mempool.synchronizer.requests.contains d = true

/-- When the synchronizer handles a `Clean` of a round, no block above the round misses a payload that was first asked for at
a height up to the round. -/
def Orderly [Crypto] [Mempool.PayloadBincode] (host : Host) (before : List HostInput) (input : HostInput) : Prop :=
  ∀ now r cause rest, input = .mempool (.inner now) → (host.run before).mempool.synchronizer.alive = true →
    (host.run before).mempool.inner = (.clean r, cause) :: rest →
    ∀ B, host.Pends before B → r < B.height → ∀ d ∈ B.payload, (host.run before).store.contains d = false →
      ∀ height time, (host.run before).mempool.synchronizer.requests.get? d = some (height, time) → r < height

theorem run_snoc [Crypto] [Mempool.PayloadBincode] (host : Host) (inputs : List HostInput) (input : HostInput) :
    host.run (inputs ++ [input]) = (host.run inputs).step input := by
  simp [run]

theorem waited_snoc [Crypto] [Mempool.PayloadBincode] (host : Host) (inputs : List HostInput) (input : HostInput) :
    host.waited (inputs ++ [input]) = host.waited inputs ++ (host.run (inputs ++ [input])).mempool.synchronizer.waiting := by
  induction inputs generalizing host with
  | nil => rfl
  | cons first rest ih =>
      show _ ++ (host.step first).waited (rest ++ [input]) = (_ ++ (host.step first).waited rest) ++ _
      rw [ih, List.append_assoc]
      rfl

/-- A host whose store only grows. -/
def Steady (host : Host) : Prop := host.node.Sound fun _ _ _ => True

theorem Steady.kept [Crypto] [Mempool.PayloadBincode] (h : host.Steady) (input : HostInput) :
    ∀ d, host.store.contains d = true → (host.step input).store.contains d = true := by
  cases input with
  | mempool input =>
      exact ((Mempool.step_grows (m := host.mempool) host.store input).evolves ⟨[], 0, 0, .listed, .listed⟩).kept
  | consensus channel message env =>
      have sound : host.node.Sound fun _ k _ => ∀ d, host.store.contains d = true → k.store.contains d = true :=
        ⟨fun alive => ⟨(h.1 alive).names, (h.1 alive).own, fun _ mem => mem⟩, h.2.elim fun v _ => ⟨v, fun _ mem => mem⟩⟩
      have next : (host.node.step (.deliver channel message env)).Sound _ := (storeInvariant (fun _ => True) host.store).step trivial sound
      obtain ⟨-, holds⟩ := next.2
      exact holds

theorem Steady.step [Crypto] [Mempool.PayloadBincode] (h : host.Steady) (input : HostInput) : (host.step input).Steady := by
  have any : Invariant (fun _ => True) fun _ _ _ => True :=
    ⟨fun _ _ _ => trivial, fun _ _ _ => trivial, fun _ _ => trivial, fun _ _ _ => trivial⟩
  cases input with
  | mempool input => exact ⟨fun alive => ⟨(h.1 alive).names, (h.1 alive).own, trivial⟩, h.2⟩
  | consensus channel message env =>
      have next : (host.node.step (.deliver channel message env)).Sound _ := any.step trivial h
      exact next

/-- What every run keeps of the synchronizer. -/
structure Followed (host : Host) (ws : List Mempool.Waiter) : Prop where
  steady : host.Steady
  tracked : Mempool.Tracked host.mempool.synchronizer host.store ws
  queued : Mempool.Queued host.mempool host.store

/-- The synchronizer takes a turn, and a message of the core only while its task is alive. -/
theorem step_turns [Crypto] [Mempool.PayloadBincode] (host : Host) (input : HostInput) :
    ∃ i, Mempool.Turns host.mempool host.store i (host.step input).mempool.synchronizer ∧
      ∀ now, i = .inner now → input = .mempool (.inner now) ∧ host.mempool.synchronizer.alive = true := by
  have idle : ∃ i, Mempool.Turns host.mempool host.store i host.mempool.synchronizer ∧
      ∀ now, i = .inner now → input = .mempool (.inner now) ∧ host.mempool.synchronizer.alive = true :=
    ⟨.tick 0, Mempool.turns_same, fun _ same => by contradiction⟩
  cases input with
  | consensus channel message env => exact idle
  | mempool input =>
      rcases Mempool.step_synchronizer (m := host.mempool) host.store input with same | ⟨alive, task⟩
      · show ∃ i, Mempool.Turns _ _ i (host.mempool.step host.store input).1.synchronizer ∧ _
        rw [same]
        exact idle
      · refine ⟨input, ?_, fun now same => ⟨congrArg _ same, alive⟩⟩
        show Mempool.Turns _ _ _ (host.mempool.step host.store input).1.synchronizer
        rw [task]
        exact Mempool.task_turns host.store input

theorem step_queued [Crypto] [Mempool.PayloadBincode] (h : Mempool.Queued host.mempool host.store) (steady : host.Steady)
    (input : HostInput) :
    Mempool.Queued (host.step input).mempool (host.step input).store := by
  cases input with
  | consensus channel message env => exact h.mono (fun _ mem => mem) (steady.kept _)
  | mempool input => exact h.step input

theorem Followed.step [Crypto] [Mempool.PayloadBincode] {ws : List Mempool.Waiter} (h : host.Followed ws) (input : HostInput) :
    (host.step input).Followed (ws ++ (host.step input).mempool.synchronizer.waiting) := by
  constructor
  · exact h.steady.step input
  · obtain ⟨i, turns, -⟩ := step_turns host input
    exact (h.tracked.turn h.queued turns).mono (h.steady.kept input)
  · exact step_queued h.queued h.steady input

section
variable (name : PublicKey) (committee : Committee) (parameters : Parameters) (first : Store) (env : Env)
  (mempoolName : PublicKey) (mempoolCommittee : Mempool.Committee) (mempoolParameters : Mempool.Parameters)

/-- A node of consensus and its mempool as they are started, over any store. -/
def fresh [Crypto] : Host := start (Core.new name committee parameters first) env (.new mempoolName mempoolCommittee mempoolParameters)

variable {name committee parameters first env mempoolName mempoolCommittee mempoolParameters}

theorem followed_run [Crypto] [Mempool.PayloadBincode] (inputs : List HostInput) :
    ((fresh name committee parameters first env mempoolName mempoolCommittee mempoolParameters).run inputs).Followed
      ((fresh name committee parameters first env mempoolName mempoolCommittee mempoolParameters).waited inputs) := by
  have any : Invariant (fun _ => True) fun _ _ _ => True :=
    ⟨fun _ _ _ => trivial, fun _ _ _ => trivial, fun _ _ => trivial, fun _ _ _ => trivial⟩
  induction inputs using List.reverseRecOn with
  | nil =>
      have none {w : Mempool.Waiter} : w ∉ ([] : List Mempool.Waiter) := List.not_mem_nil
      refine ⟨any.init trivial, ⟨fun w mem => absurd mem none, fun w mem => absurd mem none, fun w mem => absurd mem none,
        fun w mem => absurd mem none⟩, fun missing block cause mem => absurd mem List.not_mem_nil⟩
  | append_singleton inputs input ih =>
      rw [waited_snoc, run_snoc]
      exact ih.step input

theorem asked_iff_retries [Crypto] [Mempool.PayloadBincode] (host : Host) (inputs : List HostInput) :
    Mempool.Asked (host.run inputs).mempool.synchronizer (host.run inputs).store (host.waited inputs) ↔ host.Retries inputs := by
  constructor
  · rintro asked B ⟨w, mem, rfl, entry⟩
    exact asked w mem entry
  · intro retries w mem entry
    exact retries w.block ⟨w, mem, rfl, entry⟩

/-- The pending blocks of a run are asked for in each of its states exactly if every `Clean` spares what they miss. -/
theorem retries_iff [Crypto] [Mempool.PayloadBincode] (inputs : List HostInput) :
    (∀ before after, inputs = before ++ after →
      (fresh name committee parameters first env mempoolName mempoolCommittee mempoolParameters).Retries before) ↔
    ∀ before input after, inputs = before ++ input :: after →
      (fresh name committee parameters first env mempoolName mempoolCommittee mempoolParameters).Orderly before input := by
  generalize start : fresh name committee parameters first env mempoolName mempoolCommittee mempoolParameters = host
  constructor
  · intro retries before input after same now r cause rest inner alive head B pends above d listed absent height time found
    obtain ⟨w, mem, rfl, entry⟩ := pends
    have next : ((host.run (before ++ [input])).mempool.synchronizer = (host.run before).mempool.synchronizer.clean r) ∧
        (host.run (before ++ [input])).store = (host.run before).store := by
      rw [run_snoc, inner]
      unfold step Mempool.step Mempool.task
      simp only [alive, head]
      exact ⟨rfl, rfl⟩
    have stays : host.Pends (before ++ [input]) w.block := by
      refine ⟨w, by rw [waited_snoc]; exact List.mem_append_left _ mem, rfl, ?_⟩
      rw [next.1]
      refine (Map.get?_retainValues _ _ _).trans ?_
      rw [entry, Option.filter_some, if_pos (decide_eq_true above)]
    have asked := retries (before ++ [input]) after (by rw [same, List.append_assoc]; rfl) w.block stays d listed (by rw [next.2]; exact absent)
    rw [next.1] at asked
    obtain ⟨kept, found'⟩ := Option.isSome_iff_exists.mp asked
    have filtered := (Map.get?_retainValues _ _ _).symm.trans found'
    rw [found] at filtered
    obtain ⟨entry, above⟩ := Option.filter_eq_some_iff.mp filtered
    obtain rfl := Option.some.inj entry
    exact of_decide_eq_true above
  · intro orderly before
    subst start
    induction before using List.reverseRecOn with
    | nil =>
        rintro after - B ⟨w, mem, -⟩
        exact absurd mem List.not_mem_nil
    | append_singleton before input ih =>
        intro after same
        have followed : ((fresh name committee parameters first env mempoolName mempoolCommittee mempoolParameters).run before).Followed
            ((fresh name committee parameters first env mempoolName mempoolCommittee mempoolParameters).waited before) :=
          followed_run before
        have step := orderly before input after (by rw [same, List.append_assoc]; rfl)
        have asked := (asked_iff_retries _ _).mpr (ih (input :: after) (by rw [same, List.append_assoc]; rfl))
        apply (asked_iff_retries _ _).mp
        rw [waited_snoc, run_snoc]
        obtain ⟨i, turns, inner⟩ := step_turns (Host.run _ before) input
        refine (asked.turn followed.tracked followed.queued ?_ turns).mono (followed.steady.kept input)
        intro now r cause rest same head w mem entry above
        obtain ⟨handled, alive⟩ := inner now same
        exact step now r cause rest handled alive head w.block ⟨w, mem, rfl, entry⟩ above

end
end Host
end
end HotstuffDag

namespace HotstuffDag.Sample
open Library

/-- Two blocks of different heights list the same payload, and then the lower one's height is committed. -/
def sharedPayload : List HostInput := missingPayload lateBlock ++ missingPayload laterBlock ++ lowerCommit

def sharedWaiter : Mempool.Waiter := ⟨1, [latePayload.digest], laterBlock⟩

theorem shared_payload_forgotten :
    (host 2).Pends sharedPayload laterBlock ∧ latePayload.digest ∈ laterBlock.payload ∧
      ((host 2).run sharedPayload).store.contains latePayload.digest = false ∧
      ((host 2).run sharedPayload).mempool.synchronizer.requests.contains latePayload.digest = false := by
  refine ⟨⟨sharedWaiter, ?_, rfl, ?_⟩, ?_, ?_, ?_⟩ <;> decide +kernel

end HotstuffDag.Sample
