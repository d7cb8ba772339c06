import HotstuffDag.Proof.MempoolRetry
import HotstuffDag.Proof.PayloadRequests

/-! # What `Get` takes from the queues

The two queues are sets of their own, and a payload of this node that a peer sends back is in both. When
they are empty, a payload is made and answered whatever the maximum is. -/

namespace HotstuffDag.Mempool
open Library Library.Exec
variable [Crypto] {s s' : State} {fresh : Digest → Prop} {max : Nat} {d : Digest}

/-! ## What one call answers -/

abbrev State.Idle (s : State) : Prop := s.core.optQueue.isEmpty = true ∧ s.core.pesQueue.isEmpty = true

/-- The queues may grow without another allocation. -/
def State.Room (s : State) : Prop :=
  s.core.optQueue.len < s.env.optCapacity ∧ s.core.pesQueue.len < s.env.pesCapacity

instance (s : State) : Decidable s.Room := inferInstanceAs (Decidable (_ ∧ _))

def optTaken (s : State) (max : Nat) : List Digest := s.core.optQueue.take s.env.optOrder (max / Core.digestLen)

def pesTaken (s : State) (max : Nat) : List Digest :=
  s.core.pesQueue.take s.env.pesOrder (max / Core.digestLen - (optTaken s max).length)

/-- The payload that is made when both queues are empty. -/
def freshPayload (s : State) : Option Payload := if s.Room then Runner.answer s.maker.make.1 else none

/-- The answer to `Get`; after an error it is empty. -/
def answered (s : State) (max : Nat) : List Digest :=
  match Core.getPayload max s with
  | .ok digests _ => digests
  | .error _ _ => []

theorem getPayload_busy (busy : ¬ s.Idle) (max : Nat) : Core.getPayload max s =
    .ok (optTaken s max ++ pesTaken s max) { s with core := { s.core with
      optQueue := s.core.optQueue.removeAll (optTaken s max)
      pesQueue := s.core.pesQueue.removeAll (pesTaken s max) } } := by
  have opt : (if s.core.optQueue.isEmpty then [] else s.core.optQueue.take s.env.optOrder (max / Core.digestLen)) =
      optTaken s max := by
    split
    · next empty => exact (HashSet.take_of_isEmpty _ _ empty).symm
    · rfl
  unfold Core.getPayload
  rw [bind_eq, get_run]
  dsimp only
  rw [if_neg busy, opt]
  rfl

omit [Crypto] in
theorem processOwnPayload_run (digest : Digest) (p : Payload) (s : State) : Core.processOwnPayload digest p s =
    if s.Room then
      .ok ⟨⟩ { s with
        store := s.store.insert digest (.payload p)
        log := s.log ++ [.stored p] ++ [.transmit (.payload p) (s.core.committee.broadcastAddresses s.core.name)] }
    else .error (.error .mempoolFull) s := by
  unfold Core.processOwnPayload
  rw [bind_eq, get_run]
  dsimp only
  rw [bind_eq, ensure_run]
  by_cases room : s.Room
  · have open_ : decide (s.core.optQueue.len < s.env.optCapacity ∧ s.core.pesQueue.len < s.env.pesCapacity) = true :=
      decide_eq_true room
    rw [open_, if_pos rfl, if_pos room]
    rfl
  · have full : decide (s.core.optQueue.len < s.env.optCapacity ∧ s.core.pesQueue.len < s.env.pesCapacity) = false :=
      decide_eq_false room
    rw [full, if_neg Bool.false_ne_true, if_neg room]

/-- The payload maker has made a payload. -/
def State.afterMake (s : State) : State := { s with maker := s.maker.make.2, log := s.log ++ [.made s.maker.make.1] }

theorem makePayload_run (s : State) : Core.makePayload s = .ok (Runner.answer s.maker.make.1) s.afterMake := rfl

/-- No transactions are waiting. -/
theorem getPayload_nothing (idle : s.Idle) (none : Runner.answer s.maker.make.1 = none) (max : Nat) :
    Core.getPayload max s = .ok [] s.afterMake := by
  unfold Core.getPayload
  rw [bind_eq, get_run]
  dsimp only
  rw [if_pos idle, bind_eq, makePayload_run, none]
  rfl

/-- A payload has been made, and there is no room to store it. -/
theorem getPayload_full (idle : s.Idle) (full : ¬ s.Room) {p : Payload} (some : Runner.answer s.maker.make.1 = some p)
    (max : Nat) : Core.getPayload max s = .error (.error .mempoolFull) s.afterMake := by
  have full : ¬ s.afterMake.Room := full
  unfold Core.getPayload
  rw [bind_eq, get_run]
  dsimp only
  rw [if_pos idle, bind_eq, makePayload_run, some]
  dsimp only
  rw [bind_eq, processOwnPayload_run, if_neg full]

/-- The payload is stored and shared. -/
def State.afterShare (s : State) (p : Payload) : State :=
  { s with
    store := s.store.insert p.digest (.payload p)
    log := s.log ++ [.stored p] ++ [.transmit (.payload p) (s.core.committee.broadcastAddresses s.core.name)] }

theorem getPayload_fresh (idle : s.Idle) {p : Payload} (made : freshPayload s = some p) (max : Nat) :
    Core.getPayload max s = .ok [p.digest] (s.afterMake.afterShare p) := by
  unfold freshPayload at made
  rw [Option.ite_none_right_eq_some] at made
  obtain ⟨room, made⟩ := made
  have room : s.afterMake.Room := room
  unfold Core.getPayload
  rw [bind_eq, get_run]
  dsimp only
  rw [if_pos idle, bind_eq, makePayload_run, made]
  dsimp only
  rw [bind_eq, processOwnPayload_run, if_pos room]
  rfl

theorem answered_busy (busy : ¬ s.Idle) (max : Nat) : answered s max = optTaken s max ++ pesTaken s max := by
  unfold answered
  rw [getPayload_busy busy]

theorem answered_idle (idle : s.Idle) (max : Nat) : answered s max = (freshPayload s).toList.map Payload.digest := by
  unfold answered
  cases made : freshPayload s with
  | some p =>
      rw [getPayload_fresh idle made]
      rfl
  | none =>
      unfold freshPayload at made
      cases answer : Runner.answer s.maker.make.1 with
      | none =>
          rw [getPayload_nothing idle answer]
          rfl
      | some p =>
          rw [answer, ite_eq_right_iff] at made
          have full : ¬ s.Room := fun room => absurd (made room) (Option.some_ne_none p)
          rw [getPayload_full idle full answer]
          rfl

/-! ## When the answer is a selection -/

/-- The answer lists stored payloads once each and within the maximum, and they are what the queues have lost. -/
structure Selects (s : State) (max : Nat) : Prop where
  distinct : (answered s max).Nodup
  bounded : Core.digestLen * (answered s max).length ≤ max
  stored : ∀ d ∈ answered s max, StoredAsPayload (final (Core.getPayload max) s).store d
  removed : ¬ s.Idle → ∀ d, d ∈ answered s max ↔
    d ∈ s.core.optQueue ∧ d ∉ (final (Core.getPayload max) s).core.optQueue ∨
      d ∈ s.core.pesQueue ∧ d ∉ (final (Core.getPayload max) s).core.pesQueue

/-- A payload is only made for a maximum of a digest at least, and what is taken from one queue is neither taken from the
other nor a block. -/
structure Selectable (s : State) (max : Nat) : Prop where
  roomy : s.Idle → freshPayload s ≠ none → Core.digestLen ≤ max
  apart : ¬ s.Idle → ∀ d ∈ optTaken s max, d ∉ pesTaken s max
  payloads : ¬ s.Idle → ∀ d, d ∈ optTaken s max ∨ d ∈ pesTaken s max → ∀ b, s.store.get? d ≠ some (.block b)

section
omit [Crypto]

theorem optTaken_mem (h : d ∈ optTaken s max) : d ∈ s.core.optQueue := HashSet.mem_of_mem_take _ _ h

theorem pesTaken_mem (h : d ∈ pesTaken s max) : d ∈ s.core.pesQueue := HashSet.mem_of_mem_take _ _ h

/-- Both takes share the budget. -/
theorem taken_length (s : State) (max : Nat) : Core.digestLen * (optTaken s max ++ pesTaken s max).length ≤ max := by
  have opt : (optTaken s max).length ≤ max / Core.digestLen := HashSet.take_length_le _ _ _
  have pes : (pesTaken s max).length ≤ max / Core.digestLen - (optTaken s max).length := HashSet.take_length_le _ _ _
  rw [List.length_append]
  calc Core.digestLen * ((optTaken s max).length + (pesTaken s max).length)
      ≤ Core.digestLen * (max / Core.digestLen) := Nat.mul_le_mul_left _ (by omega)
    _ ≤ max := Nat.mul_div_le _ _

end

theorem final_busy (busy : ¬ s.Idle) (max : Nat) : final (Core.getPayload max) s = { s with core := { s.core with
    optQueue := s.core.optQueue.removeAll (optTaken s max)
    pesQueue := s.core.pesQueue.removeAll (pesTaken s max) } } := by
  unfold final
  rw [getPayload_busy busy]

theorem removed_busy (busy : ¬ s.Idle) (d : Digest) : d ∈ answered s max ↔
    d ∈ s.core.optQueue ∧ d ∉ (final (Core.getPayload max) s).core.optQueue ∨
      d ∈ s.core.pesQueue ∧ d ∉ (final (Core.getPayload max) s).core.pesQueue := by
  rw [answered_busy busy, final_busy busy, List.mem_append]
  simp only [HashSet.mem_removeAll]
  constructor
  · rintro (opt | pes)
    · exact .inl ⟨optTaken_mem opt, fun kept => kept.1 opt⟩
    · exact .inr ⟨pesTaken_mem pes, fun kept => kept.1 pes⟩
  · rintro (⟨mem, gone⟩ | ⟨mem, gone⟩)
    · left
      by_contra left_
      exact gone ⟨left_, mem⟩
    · right
      by_contra left_
      exact gone ⟨left_, mem⟩

theorem selects_busy_iff (backed : ∀ d, s.core.queued d → s.store.contains d = true) (busy : ¬ s.Idle) :
    Selects s max ↔ Selectable s max := by
  have store : (final (Core.getPayload max) s).store = s.store := by rw [final_busy busy]
  constructor
  · rintro ⟨distinct, -, stored, -⟩
    rw [answered_busy busy] at distinct stored
    refine ⟨fun idle => absurd idle busy, fun _ d opt pes => ?_, fun _ d taken b block => ?_⟩
    · exact (List.nodup_append.mp distinct).2.2 d opt d pes rfl
    · obtain ⟨p, found⟩ := stored d (List.mem_append.mpr taken)
      rw [store, block] at found
      cases found
  · rintro ⟨-, apart, payloads⟩
    refine ⟨?_, ?_, ?_, fun _ => removed_busy busy⟩
    · rw [answered_busy busy]
      apply List.nodup_append.mpr
      refine ⟨HashSet.take_nodup _ _ _, HashSet.take_nodup _ _ _, ?_⟩
      intro d opt d' pes same
      exact apart busy d opt (same ▸ pes)
    · rw [answered_busy busy]
      exact taken_length s max
    · rw [answered_busy busy, store]
      intro d taken
      have taken := List.mem_append.mp taken
      have present := backed d (taken.imp optTaken_mem pesTaken_mem)
      obtain ⟨v, found⟩ := Option.isSome_iff_exists.mp present
      cases v with
      | payload p => exact ⟨p, found⟩
      | block b => exact absurd found (payloads busy d taken b)

theorem selects_idle_iff (idle : s.Idle) : Selects s max ↔ Selectable s max := by
  have any {P : Prop} (busy : ¬ s.Idle) : P := absurd idle busy
  cases made : freshPayload s with
  | none =>
      have empty : answered s max = [] := by
        rw [answered_idle idle, made]
        rfl
      have nothing : ∀ d, d ∉ answered s max := by simp [empty]
      constructor
      · exact fun _ => ⟨fun _ some => absurd made some, fun busy => any busy, fun busy => any busy⟩
      · intro _
        refine ⟨by simp [empty], by simp [empty], fun d mem => absurd mem (nothing d), fun busy => any busy⟩
  | some p =>
      have one : answered s max = [p.digest] := by
        rw [answered_idle idle, made]
        rfl
      constructor
      · intro selects
        refine ⟨fun _ _ => ?_, fun busy => any busy, fun busy => any busy⟩
        have bounded := selects.bounded
        rwa [one, List.length_singleton, Nat.mul_one] at bounded
      · intro selectable
        have roomy := selectable.roomy idle (by simp [made])
        refine ⟨by simp [one], ?_, ?_, fun busy => any busy⟩
        · rwa [one, List.length_singleton, Nat.mul_one]
        · rw [one]
          intro d mem
          rw [List.mem_singleton.mp mem]
          unfold final
          rw [getPayload_fresh idle made]
          exact ⟨p, Map.get?_insert_self _ _ _⟩

theorem selects_iff (backed : ∀ d, s.core.queued d → s.store.contains d = true) : Selects s max ↔ Selectable s max := by
  by_cases idle : s.Idle
  · exact selects_idle_iff idle
  · exact selects_busy_iff backed idle

/-! ## What enters the queues -/

/-- An own payload is stored and queued. -/
def Core.AdmitsOwn (c : Core) (env : Env) : Prop :=
  c.optQueue.len < c.parameters.queueCapacity ∧ c.optQueue.len < env.optCapacity ∧ c.pesQueue.len < env.pesCapacity

instance (c : Core) (env : Env) : Decidable (c.AdmitsOwn env) := inferInstanceAs (Decidable (_ ∧ _))

/-- Only digests that are `fresh` come into the queues, with a value in the store. -/
structure Enqueues (fresh : Digest → Prop) (s s' : State) : Prop where
  kept : ∀ d, s.store.contains d = true → s'.store.contains d = true
  queued : ∀ d, s'.core.queued d → s.core.queued d ∨ fresh d ∧ s'.store.contains d = true

section
omit [Crypto]

theorem Enqueues.still (core : s'.core = s.core) (kept : ∀ d, s.store.contains d = true → s'.store.contains d = true) :
    Enqueues fresh s s' :=
  ⟨kept, fun _ mem => .inl (core ▸ mem)⟩

instance : Std.Refl (Enqueues fresh) := ⟨fun _ => .still rfl fun _ h => h⟩

instance : IsTrans State (Enqueues fresh) where
  trans s s' s'' h h' := by
    refine ⟨fun d mem => h'.kept d (h.kept d mem), fun d mem => ?_⟩
    rcases h'.queued d mem with before | new
    · rcases h.queued d before with old | ⟨fresh, present⟩
      · exact .inl old
      · exact .inr ⟨fresh, h'.kept d present⟩
    · exact .inr new

theorem Reads.enqueues (h : Reads s s') : Enqueues fresh s s' := .still h.core fun _ mem => h.store ▸ mem

theorem contains_storePayload (s : State) (key : Digest) (p : Payload) (d : Digest) (mem : s.store.contains d = true) :
    (s.store.insert key (.payload p)).contains d = true := by
  rw [Map.contains_insert, mem, Bool.or_true]

theorem enqueued_transmit (message : MempoolMessage) (dest : Option PublicKey) :
    Leads (Enqueues fresh) (transmit message dest) s fun _ _ => True := by
  have sent (addresses : List SocketAddr) : Leads (Enqueues fresh) (emit (.transmit message addresses)) s fun _ _ => True :=
    ⟨.still rfl fun _ h => h, trivial⟩
  unfold transmit
  apply Leads.get
  cases dest with
  | none => exact sent _
  | some name =>
      dsimp only
      cases s.core.committee.mempoolAddress name with
      | ok address => exact sent _
      | error e => exact Leads.throw

theorem enqueued_handleRequest [PayloadBincode] (digests : List Digest) (requestor : PublicKey) :
    Leads (Enqueues fresh) (Core.handleRequest digests requestor) s fun _ _ => True := by
  induction digests generalizing s with
  | nil => exact Leads.pure trivial
  | cons digest rest ih =>
      unfold Core.handleRequest
      refine Leads.bind ((leads_read digest).mono fun _ reads => reads.enqueues) fun value t _ _ => ?_
      cases value with
      | none => exact ih
      | some value =>
          refine Leads.bind ((leads_decodePayload value).mono fun _ reads => reads.enqueues) fun payload t _ _ => ?_
          exact Leads.bind (enqueued_transmit _ _) fun _ t _ _ => ih

theorem enqueued_verifyPayload (block : Block) : Leads (Enqueues fresh) (Core.verifyPayload block) s fun _ _ => True := by
  unfold Core.verifyPayload
  refine Leads.bind ((leads_missingDigests _ _).mono fun _ reads => reads.enqueues) fun missing t _ _ => ?_
  apply Leads.ite
  · exact fun _ => Leads.pure trivial
  · exact fun _ => Leads.modify (.still rfl fun _ h => h) (Leads.pure trivial)

end

theorem enqueued_handleOwnPayload (p : Payload) (admitted : s.core.AdmitsOwn s.env → fresh p.digest) :
    Leads (Enqueues fresh) (Core.handleOwnPayload p) s fun _ _ => True := by
  unfold Core.handleOwnPayload
  refine Leads.get (leads_ensure fun capacity => ?_)
  unfold Leads
  rw [bind_eq, processOwnPayload_run]
  by_cases room : s.Room
  · rw [if_pos room]
    refine ⟨⟨fun d => contains_storePayload s _ p d, fun d mem => ?_⟩, trivial⟩
    rcases mem with opt | pes
    · rcases HashSet.mem_insert.mp opt with rfl | old
      · refine .inr ⟨admitted ⟨of_decide_eq_true capacity, room⟩, ?_⟩
        show (s.store.insert p.digest (.payload p)).contains p.digest = true
        rw [Map.contains_insert]
        simp
      · exact .inl (.inl old)
    · exact .inl (.inr pes)
  · rw [if_neg room]
    exact .still rfl fun _ h => h

theorem enqueued_handleOthersPayload (p : Payload) (admitted : s.core.Authentic p → fresh p.digest) :
    Leads (Enqueues fresh) (Core.handleOthersPayload p) s fun _ _ => True := by
  unfold Core.handleOthersPayload
  refine Leads.get (leads_ensure fun known => leads_ensure fun small => leads_ensure fun signed => ?_)
  have authentic : s.core.Authentic p := ⟨known, of_decide_eq_true small, signed⟩
  refine ⟨⟨fun d => contains_storePayload s _ p d, fun d mem => ?_⟩, trivial⟩
  rcases mem with opt | pes
  · exact .inl (.inl opt)
  · rcases HashSet.mem_insert.mp pes with rfl | old
    · refine .inr ⟨admitted authentic, ?_⟩
      show (s.store.insert p.digest (.payload p)).contains p.digest = true
      rw [Map.contains_insert]
      simp
    · exact .inl (.inr old)

theorem enqueued_getPayload (max : Nat) : Leads (Enqueues fresh) (Core.getPayload max) s fun _ _ => True := by
  unfold Leads
  by_cases idle : s.Idle
  · cases made : freshPayload s with
    | some p =>
        rw [getPayload_fresh idle made]
        exact ⟨.still rfl fun d => contains_storePayload s.afterMake _ p d, trivial⟩
    | none =>
        cases answer : Runner.answer s.maker.make.1 with
        | none =>
            rw [getPayload_nothing idle answer]
            exact ⟨.still rfl fun _ h => h, trivial⟩
        | some p =>
            unfold freshPayload at made
            rw [answer, ite_eq_right_iff] at made
            have full : ¬ s.Room := fun room => absurd (made room) (Option.some_ne_none p)
            rw [getPayload_full idle full answer]
            exact .still rfl fun _ h => h
  · rw [getPayload_busy idle]
    refine ⟨⟨fun _ h => h, fun d mem => .inl ?_⟩, trivial⟩
    exact mem.imp (fun opt => ((HashSet.mem_removeAll _).mp opt).2) fun pes => ((HashSet.mem_removeAll _).mp pes).2

theorem enqueued_handleConsensus (message : ConsensusMempoolMessage) :
    Leads (Enqueues fresh) (Core.handleConsensus message) s fun _ _ => True := by
  unfold Core.handleConsensus
  cases message with
  | get max =>
      refine Leads.bind (leads_attempt (enqueued_getPayload max)) fun result t _ _ => ?_
      cases result <;> exact ⟨.still rfl fun _ h => h, trivial⟩
  | verify block =>
      refine Leads.bind (leads_attempt (enqueued_verifyPayload block)) fun result t _ _ => ?_
      exact ⟨.still rfl fun _ h => h, trivial⟩
  | cleanup digests round =>
      refine ⟨⟨fun _ h => h, fun d mem => .inl ?_⟩, trivial⟩
      exact mem.imp (fun opt => ((HashSet.mem_removeAll _).mp opt).2) fun pes => ((HashSet.mem_removeAll _).mp pes).2

variable {m : HotstuffDag.Mempool} {store : Store}

/-- The digest that a step puts into a queue. -/
def Enters (m : HotstuffDag.Mempool) : MempoolInput → Digest → Prop
  | .own env, d => ∃ p, m.own.head? = some p ∧ m.core.AdmitsOwn env ∧ p.digest = d
  | .network (.ownPayload p) env, d => m.core.AdmitsOwn env ∧ p.digest = d
  | .network (.payload p) _, d => m.core.Authentic p ∧ p.digest = d
  | _, _ => False

theorem handleMessage_enqueues [PayloadBincode] (store : Store) (env : Env) (message : MempoolMessage) :
    Leads (Enqueues (m.Enters (.network message env))) (Core.handleMessage message) (m.state store env) fun _ _ => True := by
  unfold Core.handleMessage
  cases message with
  | ownPayload p => exact enqueued_handleOwnPayload p fun admitted => ⟨admitted, rfl⟩
  | payload p => exact enqueued_handleOthersPayload p fun authentic => ⟨authentic, rfl⟩
  | payloadRequest digests sender => exact enqueued_handleRequest digests sender

omit [Crypto] in
theorem exec_enqueues {store : Store} {env : Env} {cause : Option Block} {x : M Unit} {Q : Unit → State → Prop}
    (h : Leads (Enqueues fresh) x (m.state store env) Q) :
    (∀ d, store.contains d = true → (m.exec store env cause x).2.contains d = true) ∧
      ∀ d, (m.exec store env cause x).1.core.queued d →
        m.core.queued d ∨ fresh d ∧ (m.exec store env cause x).2.contains d = true := by
  rcases exec_cases (m := m) store env cause x with same | ⟨-, same⟩
  · rw [same]
    exact ⟨fun _ present => present, fun _ mem => .inl mem⟩
  · rw [same]
    exact ⟨h.final.kept, h.final.queued⟩

/-- What a step does to the store and the queues. -/
theorem step_enqueues [PayloadBincode] (store : Store) (input : MempoolInput) :
    (∀ d, store.contains d = true → (m.step store input).2.contains d = true) ∧
      ∀ d, (m.step store input).1.core.queued d →
        m.core.queued d ∨ m.Enters input d ∧ (m.step store input).2.contains d = true := by
  have same (m' : HotstuffDag.Mempool) (core : m'.core = m.core) : (∀ d, store.contains d = true → store.contains d = true) ∧
      ∀ d, m'.core.queued d → m.core.queued d ∨ m.Enters input d ∧ store.contains d = true :=
    ⟨fun _ h => h, fun _ mem => .inl (core ▸ mem)⟩
  have tasks := same (if m.synchronizer.alive then m.task store input else m) (by
    split
    · exact (task_frame store input).core
    · rfl)
  cases input with
  | client tx =>
      refine same (m.client tx) ?_
      unfold client
      split <;> rfl
  | own env =>
      unfold step
      dsimp only
      cases waiting : m.own with
      | nil => exact same m rfl
      | cons p rest =>
          exact exec_enqueues (m := { m with own := rest }) (enqueued_handleOwnPayload p
            fun admitted => show m.Enters (.own env) p.digest from ⟨p, by rw [waiting]; rfl, admitted, rfl⟩)
  | network message env => exact exec_enqueues (handleMessage_enqueues (m := m) store env message)
  | call call env =>
      have handled : Leads (Enqueues (m.Enters (.call call env))) (Core.handleConsensus call.message) (m.state store env)
          fun _ _ => True := enqueued_handleConsensus call.message
      exact exec_enqueues handled
  | inner now | finish id | cancel id | fail id | tick now => exact tasks

end HotstuffDag.Mempool

/-! ## Runs -/

namespace HotstuffDag.Host
open Library
variable [Crypto] [Bincode] {host : Host}

/-- What is queued has a value in the store. -/
structure Backed (host : Host) : Prop where
  steady : host.Steady
  stored : ∀ d, host.mempool.core.queued d → host.store.contains d = true

theorem Backed.step [Mempool.PayloadBincode] (h : host.Backed) (input : HostInput) : (host.step input).Backed := by
  constructor
  · exact h.steady.step input
  · intro d mem
    cases input with
    | consensus channel message env => exact h.steady.kept _ d (h.stored d mem)
    | mempool input =>
        obtain ⟨kept, queued⟩ := Mempool.step_enqueues (m := host.mempool) host.store input
        rcases queued d mem with old | ⟨-, present⟩
        · exact kept d (h.stored d old)
        · exact present

theorem Backed.run [Mempool.PayloadBincode] (h : host.Backed) (inputs : List HostInput) : (host.run inputs).Backed := by
  induction inputs generalizing host with
  | nil => exact h
  | cons input rest ih => exact ih (h.step input)

/-- In every state that is reached, `Get` answers a selection exactly when what it takes is apart and no block, and what it
makes fits into the maximum. -/
theorem get_selects_iff [Mempool.PayloadBincode] (name : PublicKey) (committee : Committee) (parameters : Parameters)
    (first : Store) (env : Env)
    (mempoolName : PublicKey) (mempoolCommittee : Mempool.Committee) (mempoolParameters : Mempool.Parameters)
    (inputs : List HostInput) (env' : Mempool.Env) (max : Nat) :
    Mempool.Selects (((fresh name committee parameters first env mempoolName mempoolCommittee mempoolParameters).run
        inputs).mempool.state ((fresh name committee parameters first env mempoolName mempoolCommittee
          mempoolParameters).run inputs).store env') max ↔
      Mempool.Selectable (((fresh name committee parameters first env mempoolName mempoolCommittee mempoolParameters).run
        inputs).mempool.state ((fresh name committee parameters first env mempoolName mempoolCommittee
          mempoolParameters).run inputs).store env') max := by
  have start : (fresh name committee parameters first env mempoolName mempoolCommittee mempoolParameters).Backed := by
    constructor
    · exact (followed_run []).steady
    · rintro d (opt | pes)
      · cases opt
      · cases pes
  exact Mempool.selects_iff (start.run inputs).stored

end HotstuffDag.Host

namespace HotstuffDag.Sample
open HotstuffDag.Mempool

def ownPayload : Payload := .new [[1]] (key 1)

/-- A payload of this node comes back from a peer. -/
def echoed : Host := (host 1).run (traffic.take 3 ++ [others ownPayload])

/-- A transaction of a client is waiting. -/
def oneWaiting : Host := (host 1).run [.mempool (.client [1])]

theorem selections_refuted :
    ¬ Selects (echoed.mempool.state echoed.store mempoolEnv) 64 ∧
      answered (echoed.mempool.state echoed.store mempoolEnv) 64 = [ownPayload.digest, ownPayload.digest] ∧
      ¬ Selects (oneWaiting.mempool.state oneWaiting.store mempoolEnv) 31 ∧
      answered (oneWaiting.mempool.state oneWaiting.store mempoolEnv) 31 = [ownPayload.digest] := by
  have twice : answered (echoed.mempool.state echoed.store mempoolEnv) 64 = [ownPayload.digest, ownPayload.digest] := by
    decide +kernel
  have one : answered (oneWaiting.mempool.state oneWaiting.store mempoolEnv) 31 = [ownPayload.digest] := by
    decide +kernel
  refine ⟨?_, twice, ?_, one⟩
  · intro selects
    have distinct := selects.distinct
    rw [twice] at distinct
    exact (List.nodup_cons.mp distinct).1 List.mem_cons_self
  · intro selects
    have bounded := selects.bounded
    rw [one] at bounded
    exact absurd bounded (by decide)

end HotstuffDag.Sample
