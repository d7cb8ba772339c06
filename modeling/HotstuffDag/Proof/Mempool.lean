import HotstuffDag.Mempool.Run

/-! # What the core of the mempool does

Whatever it handles, it stores payloads under their own digests, and only for a reason. -/

namespace HotstuffDag.Mempool
open Library Library.Exec
variable {trusted : Payload → Prop} {cleaned : SeqNumber → Prop} {s s' s'' : State}

/-- What `handle_others_payload` asks of a payload. -/
def Core.Authentic [Crypto] (c : Core) (p : Payload) : Prop :=
  c.committee.hasAuthority p.author = true ∧ p.size ≤ c.parameters.maxPayloadSize ∧
    Crypto.verify p.signature p.digest p.author = true

instance [Crypto] (c : Core) (p : Payload) : Decidable (c.Authentic p) := inferInstanceAs (Decidable (_ ∧ _))

def Core.queued (c : Core) (d : Digest) : Prop := d ∈ c.optQueue ∨ d ∈ c.pesQueue

/-- How the core goes on. Own payloads are `trusted`, and a `Clean` is sent for a height that is `cleaned`. -/
structure Evolves [Crypto] (trusted : Payload → Prop) (cleaned : SeqNumber → Prop) (s s' : State) : Prop where
  name : s'.core.name = s.core.name
  committee : s'.core.committee = s.core.committee
  parameters : s'.core.parameters = s.core.parameters
  log : ∃ more, s'.log = s.log ++ more ∧ ∀ r, .inner (.clean r) ∈ more → cleaned r
  kept : ∀ d, s.store.contains d = true → s'.store.contains d = true
  written : ∀ d v, s'.store.get? d = some v →
    s.store.get? d = some v ∨ ∃ p, v = .payload p ∧ p.digest = d ∧ .stored p ∈ s'.log
  queued : ∀ d, s'.core.queued d → s.core.queued d ∨ ∃ p, p.digest = d ∧ .stored p ∈ s'.log
  origin : ∀ p, .stored p ∈ s'.log →
    .stored p ∈ s.log ∨ .made p ∈ s'.log ∨ trusted p ∨ s.core.Authentic p

theorem Evolves.mem [Crypto] (h : Evolves trusted cleaned s s') {e : Event} (mem : e ∈ s.log) : e ∈ s'.log := by
  obtain ⟨more, log, -⟩ := h.log
  rw [log]
  exact List.mem_append_left _ mem

/-- Nothing is logged. -/
theorem Evolves.silent {l : List Event} : ∃ more, l = l ++ more ∧ ∀ r, Event.inner (.clean r) ∈ more → cleaned r :=
  ⟨[], by simp, by simp⟩

theorem Core.authentic_congr [Crypto] {c c' : Core} (committee : c'.committee = c.committee)
    (parameters : c'.parameters = c.parameters) {p : Payload} : c'.Authentic p ↔ c.Authentic p := by
  unfold Core.Authentic
  rw [committee, parameters]

instance [Crypto] : Std.Refl (Evolves trusted cleaned) where
  refl _ := ⟨rfl, rfl, rfl, Evolves.silent, fun _ h => h, fun _ _ h => .inl h, fun _ h => .inl h, fun _ h => .inl h⟩

instance [Crypto] : IsTrans State (Evolves trusted cleaned) where
  trans s s' s'' h h' := by
    have kept {e : Event} (mem : e ∈ s'.log) : e ∈ s''.log := h'.mem mem
    have logs : ∃ more, s''.log = s.log ++ more ∧ ∀ r, .inner (.clean r) ∈ more → cleaned r := by
      obtain ⟨more, log, cleans⟩ := h.log
      obtain ⟨more', log', cleans'⟩ := h'.log
      refine ⟨more ++ more', by rw [log', log, List.append_assoc], fun r mem => ?_⟩
      exact (List.mem_append.mp mem).elim (cleans r) (cleans' r)
    refine ⟨h'.name.trans h.name, h'.committee.trans h.committee, h'.parameters.trans h.parameters, logs,
      fun d mem => h'.kept d (h.kept d mem), fun d v found => ?_, fun d mem => ?_, fun p mem => ?_⟩
    · rcases h'.written d v found with found | new
      · rcases h.written d v found with found | ⟨p, value, digest, stored⟩
        · exact .inl found
        · exact .inr ⟨p, value, digest, kept stored⟩
      · exact .inr new
    · rcases h'.queued d mem with mem | new
      · rcases h.queued d mem with mem | ⟨p, digest, stored⟩
        · exact .inl mem
        · exact .inr ⟨p, digest, kept stored⟩
      · exact .inr new
    · rcases h'.origin p mem with mem | made | own | authentic
      · rcases h.origin p mem with mem | made | other
        · exact .inl mem
        · exact .inr (.inl (kept made))
        · exact .inr (.inr other)
      · exact .inr (.inl made)
      · exact .inr (.inr (.inl own))
      · exact .inr (.inr (.inr ((Core.authentic_congr h.committee h.parameters).mp authentic)))

/-! ## Steps -/

@[simp] theorem pure_run {α : Type} (a : α) (s : State) : (pure a : M α) s = .ok a s := rfl

@[simp] theorem throw_run {α : Type} (e : Exn) (s : State) : (throw e : M α) s = .error e s := rfl

@[simp] theorem get_run (s : State) : (get : M State) s = .ok s s := rfl

@[simp] theorem emit_run (e : Event) (s : State) : emit e s = .ok ⟨⟩ { s with log := s.log ++ [e] } := rfl

@[simp] theorem modifyCore_run (g : Core → Core) (s : State) : modifyCore g s = .ok ⟨⟩ { s with core := g s.core } := rfl

@[simp] theorem ensure_run (condition : Bool) (e : MempoolError) (s : State) :
    ensure condition e s = if condition then .ok ⟨⟩ s else .error (.error e) s := by
  cases condition <;> rfl

@[simp] theorem storePayload_run (key : Digest) (payload : Payload) (s : State) : Core.storePayload key payload s =
    .ok ⟨⟩ { s with store := s.store.insert key (.payload payload), log := s.log ++ [.stored payload] } := rfl

/-- An event that is not a store. -/
theorem evolves_emit [Crypto] {e : Event} (quiet : ∀ p, e ≠ .stored p) (calm : ∀ r, e = .inner (.clean r) → cleaned r) :
    Evolves trusted cleaned s { s with log := s.log ++ [e] } := by
  have logs : ∃ more, s.log ++ [e] = s.log ++ more ∧ ∀ r, .inner (.clean r) ∈ more → cleaned r :=
    ⟨[e], rfl, fun r mem => calm r (List.mem_singleton.mp mem).symm⟩
  refine ⟨rfl, rfl, rfl, logs, fun _ h => h, fun _ _ h => .inl h, fun _ h => .inl h, fun p mem => ?_⟩
  rcases List.mem_append.mp mem with old | new
  · exact .inl old
  · exact absurd (List.mem_singleton.mp new).symm (quiet p)

theorem evolves_store [Crypto] {p : Payload} (why : .made p ∈ s.log ∨ trusted p ∨ s.core.Authentic p) :
    Evolves trusted cleaned s { s with store := s.store.insert p.digest (.payload p), log := s.log ++ [.stored p] } := by
  refine ⟨rfl, rfl, rfl, ⟨_, rfl, by simp⟩, fun d mem => ?_, fun d v found => ?_, fun _ h => .inl h, fun q mem => ?_⟩
  · rw [Map.contains] at mem ⊢
    rw [Map.get?_insert]
    split
    · rfl
    · exact mem
  · rw [Map.get?_insert] at found
    split at found
    · next same => exact .inr ⟨p, (Option.some.inj found).symm, same, List.mem_append_right _ List.mem_cons_self⟩
    · exact .inl found
  · rcases List.mem_append.mp mem with old | new
    · exact .inl old
    · obtain rfl : q = p := by simpa using new
      exact .inr (why.imp_left (List.mem_append_left _))

theorem evolves_queues [Crypto] {opt pes : HashSet Digest}
    (why : ∀ d, d ∈ opt ∨ d ∈ pes → s.core.queued d ∨ ∃ p, p.digest = d ∧ .stored p ∈ s.log) :
    Evolves trusted cleaned s { s with core := { s.core with optQueue := opt, pesQueue := pes } } :=
  ⟨rfl, rfl, rfl, Evolves.silent, fun _ h => h, fun _ _ h => .inl h, why, fun _ h => .inl h⟩

/-- Reads leave everything but the environment alone. -/
structure Reads (s s' : State) : Prop where
  core : s'.core = s.core
  maker : s'.maker = s.maker
  store : s'.store = s.store
  log : s'.log = s.log

instance : Std.Refl Reads := ⟨fun _ => ⟨rfl, rfl, rfl, rfl⟩⟩

instance : IsTrans State Reads where
  trans _ _ _ h h' := ⟨h'.core.trans h.core, h'.maker.trans h.maker, h'.store.trans h.store, h'.log.trans h.log⟩

theorem Reads.evolves [Crypto] (h : Reads s s') : Evolves trusted cleaned s s' := by
  obtain ⟨core, maker, store, log⟩ := h
  obtain ⟨c, k, σ, l, env⟩ := s'
  subst core maker store log
  exact ⟨rfl, rfl, rfl, Evolves.silent, fun _ h => h, fun _ _ h => .inl h, fun _ h => .inl h, fun _ h => .inl h⟩

section
variable {α β : Type} {Q : β → State → Prop}

theorem leads_emit [Crypto] {e : Event} {f : PUnit → M β} (quiet : ∀ p, e ≠ .stored p) (calm : ∀ r, e = .inner (.clean r) → cleaned r)
    (h : Leads (Evolves trusted cleaned) (f ⟨⟩) { s with log := s.log ++ [e] } Q) :
    Leads (Evolves trusted cleaned) (emit e >>= f) s Q :=
  Leads.modify (evolves_emit quiet calm) h

theorem leads_ensure {R : State → State → Prop} [Std.Refl R] {c : Bool} {e : MempoolError} {f : PUnit → M β}
    (h : c = true → Leads R (f ⟨⟩) s Q) : Leads R (ensure c e >>= f) s Q := by
  cases c with
  | true => exact h rfl
  | false => exact Leads.throw

theorem leads_read (digest : Digest) : Leads Reads (read digest) s fun value _ => value = s.store.get? digest := by
  unfold read
  refine Leads.get ?_
  cases s.env.failures with
  | nil => exact Leads.pure rfl
  | cons failed rest =>
      refine Leads.modify ⟨rfl, rfl, rfl, rfl⟩ ?_
      cases failed with
      | true => exact Leads.throw
      | false => exact Leads.pure rfl

theorem leads_transmit [Crypto] (message : MempoolMessage) (dest : Option PublicKey) :
    Leads (Evolves trusted cleaned) (transmit message dest) s fun _ _ => True := by
  have sent (addresses : List SocketAddr) : Leads (Evolves trusted cleaned) (emit (.transmit message addresses)) s fun _ _ => True :=
    ⟨evolves_emit (by simp) (by simp), trivial⟩
  unfold transmit
  refine Leads.get ?_
  cases dest with
  | none => exact sent _
  | some name =>
      dsimp only
      cases s.core.committee.mempoolAddress name with
      | ok address => exact sent _
      | error e => exact Leads.throw

theorem leads_storePayload [Crypto] {p : Payload} (why : .made p ∈ s.log ∨ trusted p ∨ s.core.Authentic p) :
    Leads (Evolves trusted cleaned) (Core.storePayload p.digest p) s fun _ s' => .stored p ∈ s'.log :=
  ⟨evolves_store why, List.mem_append_right _ List.mem_cons_self⟩

theorem leads_processOwnPayload [Crypto] {p : Payload} (why : .made p ∈ s.log ∨ trusted p) :
    Leads (Evolves trusted cleaned) (Core.processOwnPayload p.digest p) s fun _ s' => .stored p ∈ s'.log := by
  unfold Core.processOwnPayload
  refine Leads.get (leads_ensure fun _ => ?_)
  refine Leads.bind (leads_storePayload (why.imp_right .inl)) fun _ t reach stored => ?_
  refine (leads_transmit _ _).weaken fun _ _ reach _ => ?_
  exact reach.mem stored

theorem leads_handleOwnPayload [Crypto] {p : Payload} (own : trusted p) :
    Leads (Evolves trusted cleaned) (Core.handleOwnPayload p) s fun _ _ => True := by
  unfold Core.handleOwnPayload
  refine Leads.get (leads_ensure fun _ => ?_)
  refine Leads.bind (leads_processOwnPayload (.inr own)) fun _ t reach stored => ?_
  refine ⟨evolves_queues fun d mem => ?_, trivial⟩
  rcases mem with mem | mem
  · rcases HashSet.mem_insert.mp mem with rfl | old
    · exact .inr ⟨p, rfl, stored⟩
    · exact .inl (.inl old)
  · exact .inl (.inr mem)

theorem leads_handleOthersPayload [Crypto] {p : Payload} :
    Leads (Evolves trusted cleaned) (Core.handleOthersPayload p) s fun _ _ => True := by
  unfold Core.handleOthersPayload
  refine Leads.get (leads_ensure fun known => leads_ensure fun small => leads_ensure fun signed => ?_)
  have authentic : s.core.Authentic p := ⟨known, of_decide_eq_true small, signed⟩
  refine Leads.bind (leads_storePayload (.inr (.inr authentic))) fun _ t reach stored => ?_
  refine ⟨evolves_queues fun d mem => ?_, trivial⟩
  rcases mem with mem | mem
  · exact .inl (.inl mem)
  · rcases HashSet.mem_insert.mp mem with rfl | old
    · exact .inr ⟨p, rfl, stored⟩
    · exact .inl (.inr old)

theorem leads_decodePayload [PayloadBincode] (value : Value) : Leads Reads (Core.decodePayload value) s fun _ _ => True := by
  unfold Core.decodePayload
  split
  · exact Leads.pure trivial
  · split
    · exact Leads.throw
    · split
      · exact Leads.pure trivial
      · exact Leads.throw

theorem leads_handleRequest [Crypto] [PayloadBincode] (digests : List Digest) (requestor : PublicKey) :
    Leads (Evolves trusted cleaned) (Core.handleRequest digests requestor) s fun _ _ => True := by
  induction digests generalizing s with
  | nil => exact Leads.pure trivial
  | cons digest rest ih =>
      unfold Core.handleRequest
      refine Leads.bind ((leads_read digest).mono fun _ reads => reads.evolves) fun value t _ _ => ?_
      cases value with
      | none => exact ih
      | some value =>
          refine Leads.bind ((leads_decodePayload value).mono fun _ reads => reads.evolves) fun payload t _ _ => ?_
          exact Leads.bind (leads_transmit _ _) fun _ t _ _ => ih

theorem leads_makePayload [Crypto] : Leads (Evolves trusted cleaned) Core.makePayload s fun answer s' =>
    ∀ p, answer = some p → .made p ∈ s'.log := by
  unfold Core.makePayload
  refine Leads.get (Leads.modify ?_ ?_)
  · exact ⟨rfl, rfl, rfl, Evolves.silent, fun _ h => h, fun _ _ h => .inl h, fun _ h => .inl h, fun _ h => .inl h⟩
  · refine leads_emit (by simp) (by simp) (Leads.pure fun p answer => ?_)
    unfold Runner.answer at answer
    split at answer
    · contradiction
    · rw [Option.some.inj answer]
      exact List.mem_append_right _ List.mem_cons_self

theorem leads_getPayload [Crypto] (max : Nat) : Leads (Evolves trusted cleaned) (Core.getPayload max) s fun _ _ => True := by
  unfold Core.getPayload
  refine Leads.get (Leads.ite (fun _ => ?_) fun _ => ?_)
  · refine Leads.bind leads_makePayload fun answer t _ made => ?_
    cases answer with
    | none => exact Leads.pure trivial
    | some p => exact Leads.bind (leads_processOwnPayload (.inl (made p rfl))) fun _ _ _ _ => Leads.pure trivial
  · refine Leads.modify (evolves_queues ?_) (Leads.modify (evolves_queues ?_) (Leads.pure trivial))
    · intro d mem
      exact .inl (mem.imp_left fun mem => (HashSet.mem_removeAll _).mp mem |>.2)
    · intro d mem
      exact .inl (mem.imp_right fun mem => (HashSet.mem_removeAll _).mp mem |>.2)

/-- What is not found missing is there. -/
theorem leads_missingDigests (digests : List Digest) (missing : HashSet Digest) :
    Leads Reads (Core.missingDigests digests missing) s fun found _ =>
      (∀ d ∈ missing, d ∈ found) ∧ ∀ d ∈ digests, d ∉ found → s.store.contains d = true := by
  induction digests generalizing s missing with
  | nil => exact Leads.pure ⟨fun _ mem => mem, by simp⟩
  | cons digest rest ih =>
      unfold Core.missingDigests
      refine Leads.bind (leads_read digest) fun value t reads found => ?_
      subst found
      cases present : s.store.get? digest with
      | none =>
          refine (ih (missing.insert digest)).weaken fun found _ _ result => ⟨fun d mem => ?_, fun d mem other => ?_⟩
          · exact result.1 d (HashSet.mem_insert.mpr (.inr mem))
          · rcases List.mem_cons.mp mem with rfl | mem
            · exact absurd (result.1 d (HashSet.mem_insert.mpr (.inl rfl))) other
            · rw [← reads.store]
              exact result.2 d mem other
      | some value =>
          refine (ih missing).weaken fun found _ _ result => ⟨result.1, fun d mem other => ?_⟩
          rcases List.mem_cons.mp mem with rfl | mem
          · rw [Map.contains, present]
            rfl
          · rw [← reads.store]
            exact result.2 d mem other

/-- A block is accepted if the keys of its payload are there. -/
theorem leads_verifyPayload [Crypto] (block : Block) : Leads (Evolves trusted cleaned) (Core.verifyPayload block) s fun answer _ =>
    answer = true → ∀ d ∈ block.payload, s.store.contains d = true := by
  unfold Core.verifyPayload
  refine Leads.bind ((leads_missingDigests _ _).mono fun _ reads => reads.evolves) fun missing t reach found => ?_
  refine Leads.ite (fun none => Leads.pure fun _ d mem => found.2 d mem ?_) fun _ => ?_
  · intro absent
    have empty : missing.items = [] := List.isEmpty_iff.mp none
    have present : d ∈ missing.items := absent
    rw [empty] at present
    exact absurd present List.not_mem_nil
  · exact leads_emit (by simp) (by simp) (Leads.pure fun wrong => by contradiction)

theorem leads_cleanup [Crypto] (digests : List Digest) {round : SeqNumber} (committed : cleaned round) :
    Leads (Evolves trusted cleaned) (Core.cleanup digests round) s fun _ _ => True := by
  unfold Core.cleanup
  refine leads_emit (by simp) (fun r same => ?_) ⟨evolves_queues fun d mem => ?_, trivial⟩
  · obtain rfl : round = r := by simpa using same
    exact committed
  exact .inl (mem.imp (fun mem => (HashSet.mem_removeAll _).mp mem |>.2) fun mem => (HashSet.mem_removeAll _).mp mem |>.2)

theorem leads_attempt {R : State → State → Prop} {x : M α} {Q : α → State → Prop} (h : Leads R x s Q) :
    Leads R (Core.attempt x) s fun _ _ => True := by
  unfold Leads at h ⊢
  unfold Core.attempt
  cases exit : x s with
  | ok a t =>
      rw [exit] at h
      exact ⟨h.1, trivial⟩
  | error e t =>
      rw [exit] at h
      cases e with
      | error e => exact ⟨h, trivial⟩
      | panic => exact h

theorem leads_handleConsensus [Crypto] (message : ConsensusMempoolMessage)
    (committed : ∀ digests round, message = .cleanup digests round → cleaned round) :
    Leads (Evolves trusted cleaned) (Core.handleConsensus message) s fun _ _ => True := by
  unfold Core.handleConsensus
  cases message with
  | get max =>
      refine Leads.bind (leads_attempt (leads_getPayload max)) fun result t _ _ => ?_
      cases result <;> exact ⟨evolves_emit (by simp) (by simp), trivial⟩
  | verify block =>
      refine Leads.bind (leads_attempt (leads_verifyPayload block)) fun result t _ _ => ?_
      exact ⟨evolves_emit (by simp) (by simp), trivial⟩
  | cleanup digests round => exact leads_cleanup digests (committed digests round rfl)

theorem leads_handleMessage [Crypto] [PayloadBincode] (message : MempoolMessage) (own : ∀ p, message = .ownPayload p → trusted p) :
    Leads (Evolves trusted cleaned) (Core.handleMessage message) s fun _ _ => True := by
  unfold Core.handleMessage
  cases message with
  | ownPayload p => exact leads_handleOwnPayload (own p rfl)
  | payload p => exact leads_handleOthersPayload
  | payloadRequest digests sender => exact leads_handleRequest digests sender

end

/-! ## What the core logs -/

/-- All that is logged is of a kind. -/
def Logs (kind : Event → Prop) (s s' : State) : Prop := ∃ more, s'.log = s.log ++ more ∧ ∀ e ∈ more, kind e

/-- No block is handed to the synchronizer, or handed back. -/
def Event.blockless : Event → Prop
  | .inner (.sync _ _) | .loopBack _ => False
  | _ => True

section
variable {kind : Event → Prop} {α β : Type} {Q : β → State → Prop}

theorem Logs.silent (same : s'.log = s.log) : Logs kind s s' :=
  ⟨[], by rw [same, List.append_nil], fun _ mem => absurd mem List.not_mem_nil⟩

theorem Logs.emit {e : Event} (about : kind e) : Logs kind s { s with log := s.log ++ [e] } :=
  ⟨[e], rfl, fun _ mem => List.mem_singleton.mp mem ▸ about⟩

instance : Std.Refl (Logs kind) := ⟨fun _ => .silent rfl⟩

instance : IsTrans State (Logs kind) where
  trans s s' s'' h h' := by
    obtain ⟨more, log, each⟩ := h
    obtain ⟨more', log', each'⟩ := h'
    refine ⟨more ++ more', by rw [log', log, List.append_assoc], fun e mem => ?_⟩
    rcases List.mem_append.mp mem with old | new
    · exact each e old
    · exact each' e new

theorem Reads.logs (h : Reads s s') : Logs kind s s' := .silent h.log

theorem logs_transmit (message : MempoolMessage) (dest : Option PublicKey) :
    Leads (Logs Event.blockless) (transmit message dest) s fun _ _ => True := by
  have sent (addresses : List SocketAddr) : Leads (Logs Event.blockless) (emit (.transmit message addresses)) s fun _ _ => True :=
    ⟨.emit trivial, trivial⟩
  unfold transmit
  apply Leads.get
  cases dest with
  | none => exact sent _
  | some name =>
      dsimp only
      cases s.core.committee.mempoolAddress name with
      | ok address => exact sent _
      | error e => exact Leads.throw

theorem logs_storePayload (key : Digest) (p : Payload) :
    Leads (Logs Event.blockless) (Core.storePayload key p) s fun _ _ => True :=
  ⟨⟨[.stored p], rfl, fun _ mem => List.mem_singleton.mp mem ▸ trivial⟩, trivial⟩

theorem logs_processOwnPayload (key : Digest) (p : Payload) :
    Leads (Logs Event.blockless) (Core.processOwnPayload key p) s fun _ _ => True := by
  unfold Core.processOwnPayload
  apply Leads.get
  apply leads_ensure
  intro _
  exact Leads.bind (logs_storePayload key p) fun _ _ _ _ => logs_transmit _ _

theorem logs_handleOwnPayload [Crypto] (p : Payload) : Leads (Logs Event.blockless) (Core.handleOwnPayload p) s fun _ _ => True := by
  unfold Core.handleOwnPayload
  apply Leads.get
  apply leads_ensure
  intro _
  exact Leads.bind (logs_processOwnPayload _ p) fun _ _ _ _ => ⟨.silent rfl, trivial⟩

theorem logs_handleOthersPayload [Crypto] (p : Payload) :
    Leads (Logs Event.blockless) (Core.handleOthersPayload p) s fun _ _ => True := by
  unfold Core.handleOthersPayload
  refine Leads.get (leads_ensure fun _ => leads_ensure fun _ => leads_ensure fun _ => ?_)
  exact Leads.bind (logs_storePayload _ p) fun _ _ _ _ => ⟨.silent rfl, trivial⟩

theorem logs_handleRequest [PayloadBincode] (digests : List Digest) (requestor : PublicKey) :
    Leads (Logs Event.blockless) (Core.handleRequest digests requestor) s fun _ _ => True := by
  induction digests generalizing s with
  | nil => exact Leads.pure trivial
  | cons digest rest ih =>
      unfold Core.handleRequest
      refine Leads.bind ((leads_read digest).mono fun _ reads => reads.logs) fun value t _ _ => ?_
      cases value with
      | none => exact ih
      | some value =>
          refine Leads.bind ((leads_decodePayload value).mono fun _ reads => reads.logs) fun payload t _ _ => ?_
          exact Leads.bind (logs_transmit _ _) fun _ t _ _ => ih

theorem logs_handleMessage [Crypto] [PayloadBincode] (message : MempoolMessage) :
    Leads (Logs Event.blockless) (Core.handleMessage message) s fun _ _ => True := by
  unfold Core.handleMessage
  cases message with
  | ownPayload p => exact logs_handleOwnPayload p
  | payload p => exact logs_handleOthersPayload p
  | payloadRequest digests sender => exact logs_handleRequest digests sender

theorem logs_getPayload [Crypto] (max : Nat) : Leads (Logs Event.blockless) (Core.getPayload max) s fun _ _ => True := by
  have made : Leads (Logs Event.blockless) Core.makePayload s fun _ _ => True := by
    unfold Core.makePayload
    refine Leads.get (Leads.modify (.silent rfl) ?_)
    exact Leads.modify (.emit trivial) (Leads.pure trivial)
  unfold Core.getPayload
  refine Leads.get (Leads.ite (fun _ => ?_) fun _ => ?_)
  · refine Leads.bind made fun answer t _ _ => ?_
    cases answer with
    | none => exact Leads.pure trivial
    | some p => exact Leads.bind (logs_processOwnPayload _ p) fun _ _ _ _ => Leads.pure trivial
  · apply Leads.modify (.silent rfl)
    apply Leads.modify (.silent rfl)
    exact Leads.pure trivial

theorem logs_get [Crypto] (max : Nat) : Leads (Logs Event.blockless) (Core.handleConsensus (.get max)) s fun _ _ => True := by
  unfold Core.handleConsensus
  refine Leads.bind (leads_attempt (logs_getPayload max)) fun result t _ _ => ?_
  cases result <;> exact ⟨.emit trivial, trivial⟩

theorem logs_cleanup [Crypto] (digests : List Digest) (round : SeqNumber) :
    Leads (Logs Event.blockless) (Core.handleConsensus (.cleanup digests round)) s fun _ _ => True := by
  unfold Core.handleConsensus Core.cleanup
  exact Leads.modify (.emit trivial) ⟨.silent rfl, trivial⟩

end

/-! ## Steps of the mempool -/

/-- What the task of the synchronizer logs. -/
def Event.ofTask : Event → Prop
  | .transmit _ _ | .loopBack _ => True
  | _ => False

/-- The task of the synchronizer leaves the core and the payload maker alone. -/
structure TaskFrame (m m' : HotstuffDag.Mempool) : Prop where
  core : m'.core = m.core
  maker : m'.maker = m.maker
  own : m'.own = m.own
  log : ∃ more, m'.log = m.log ++ more ∧ ∀ e ∈ more, e.ofTask

variable {m m' : HotstuffDag.Mempool}

theorem TaskFrame.same (core : m'.core = m.core) (maker : m'.maker = m.maker) (own : m'.own = m.own)
    (log : m'.log = m.log) : TaskFrame m m' :=
  ⟨core, maker, own, [], by simp [log], by simp⟩

theorem TaskFrame.logs {e : Event} (core : m'.core = m.core) (maker : m'.maker = m.maker) (own : m'.own = m.own)
    (log : m'.log = m.log ++ [e]) (about : e.ofTask) : TaskFrame m m' :=
  ⟨core, maker, own, [e], log, fun _ mem => List.mem_singleton.mp mem ▸ about⟩

theorem sync_frame [Crypto] (missing : List Digest) (block : Block) (now : Nat) : TaskFrame m (m.sync missing block now) := by
  unfold sync
  dsimp only
  split
  · exact .same rfl rfl rfl rfl
  · split
    · exact .same rfl rfl rfl rfl
    · unfold sendRequest
      split
      · exact .logs rfl rfl rfl rfl trivial
      · exact .same rfl rfl rfl rfl

theorem task_frame [Crypto] (store : Store) (input : MempoolInput) : TaskFrame m (m.task store input) := by
  cases input with
  | inner now =>
      unfold task
      cases waiting : m.inner with
      | nil => exact .same rfl rfl rfl rfl
      | cons entry rest =>
          obtain ⟨message, cause⟩ := entry
          cases message with
          | sync missing block =>
              have frame := sync_frame (m := { m with inner := rest }) missing block now
              exact ⟨frame.core, frame.maker, frame.own, frame.log⟩
          | clean round => exact .same rfl rfl rfl rfl
  | finish id =>
      unfold task
      dsimp only
      split
      · exact .same rfl rfl rfl rfl
      · split
        · exact .logs rfl rfl rfl rfl trivial
        · exact .same rfl rfl rfl rfl
  | cancel id =>
      unfold task
      dsimp only
      split
      · exact .same rfl rfl rfl rfl
      · split <;> exact .same rfl rfl rfl rfl
  | fail id => exact .same rfl rfl rfl rfl
  | tick now =>
      unfold task
      dsimp only
      split
      · exact .same rfl rfl rfl rfl
      · exact .logs rfl rfl rfl rfl trivial
  | client tx | own env | network message env | call call env => exact .same rfl rfl rfl rfl

theorem sync_inner [Crypto] (missing : List Digest) (block : Block) (now : Nat) : (m.sync missing block now).inner = m.inner := by
  unfold sync
  dsimp only
  split
  · rfl
  · split
    · rfl
    · unfold sendRequest
      split <;> rfl

theorem task_inner [Crypto] (store : Store) (input : MempoolInput) : ∀ entry ∈ (m.task store input).inner, entry ∈ m.inner := by
  have same {m' : HotstuffDag.Mempool} (h : m'.inner = m.inner) : ∀ entry ∈ m'.inner, entry ∈ m.inner :=
    fun _ mem => h ▸ mem
  cases input with
  | inner now =>
      unfold task
      cases waiting : m.inner with
      | nil => simp [waiting]
      | cons entry rest =>
          obtain ⟨message, cause⟩ := entry
          have popped : (handleInner { m with inner := rest } now message).inner = rest := by
            cases message with
            | sync missing block => exact sync_inner missing block now
            | clean round => rfl
          intro entry mem
          exact List.mem_cons_of_mem _ (popped ▸ mem)
  | finish id =>
      unfold task
      dsimp only
      split
      · exact same rfl
      · split <;> exact same rfl
  | cancel id =>
      unfold task
      dsimp only
      split
      · exact same rfl
      · split <;> exact same rfl
  | tick now =>
      unfold task
      dsimp only
      split <;> exact same rfl
  | fail id | client tx | own env | network message env | call call env => exact same rfl

theorem TaskFrame.evolves [Crypto] (h : TaskFrame m m') (store : Store) (env : Env) :
    Evolves trusted cleaned (m.state store env) (m'.state store env) := by
  obtain ⟨more, log, each⟩ := h.log
  have logs : ∃ more, m'.log = m.log ++ more ∧ ∀ r, .inner (.clean r) ∈ more → cleaned r :=
    ⟨more, log, fun r mem => (each _ mem).elim⟩
  refine ⟨congrArg Core.name h.core, congrArg Core.committee h.core, congrArg Core.parameters h.core, logs,
    fun _ h => h, fun _ _ h => .inl h, fun d mem => .inl ?_, fun p mem => .inl ?_⟩
  · change m'.core.queued d at mem
    rwa [h.core] at mem
  · change .stored p ∈ m'.log at mem
    rw [log] at mem
    exact (List.mem_append.mp mem).resolve_right fun new => (each _ new).elim

/-- The height of the block that a `Clean` is for. -/
def HeightOf (cause : Option Block) (r : SeqNumber) : Prop := ∃ b0, cause = some b0 ∧ r = b0.height

/-- A `Clean` on its way to the synchronizer is for a committed block of its height. -/
def Caused (entry : SynchronizerMessage × Option Block) : Prop := ∀ r, entry.1 = .clean r → HeightOf entry.2 r

/-- The own payloads that the core takes for its own. -/
def OwnIn (m : HotstuffDag.Mempool) (input : MempoolInput) (p : Payload) : Prop :=
  p ∈ m.own ∨ ∃ env, input = .network (.ownPayload p) env

/-- What a step does to the core and the store, and to what is on its way. -/
structure Grows [Crypto] (own : Payload → Prop) (m : HotstuffDag.Mempool) (store : Store) (m' : HotstuffDag.Mempool) (store' : Store) :
    Prop where
  evolves : ∀ env, Evolves own (fun _ => True) (m.state store env) (m'.state store' env)
  own : ∀ p ∈ m'.own, p ∈ m.own ∨ .made p ∈ m'.log
  inner : ∀ entry ∈ m'.inner, entry ∈ m.inner ∨ Caused entry

theorem Evolves.weaken [Crypto] {s s' : State} (h : Evolves trusted cleaned s s') : Evolves trusted (fun _ => True) s s' := by
  obtain ⟨more, log, -⟩ := h.log
  exact ⟨h.name, h.committee, h.parameters, ⟨more, log, fun _ _ => trivial⟩, h.kept, h.written, h.queued, h.origin⟩

theorem TaskFrame.grows [Crypto] (h : TaskFrame m m') (store : Store) (inner : ∀ entry ∈ m'.inner, entry ∈ m.inner) :
    Grows trusted m store m' store :=
  ⟨fun env => h.evolves store env, fun _ mem => .inl (h.own ▸ mem), fun entry mem => .inl (inner entry mem)⟩

/-- What is left when the core has handled a message. -/
def handled (m : HotstuffDag.Mempool) (store : Store) (env : Env) (cause : Option Block) (x : M Unit) : HotstuffDag.Mempool :=
  { m with
    core := (final x (m.state store env)).core
    maker := (final x (m.state store env)).maker
    inner := m.inner ++ innerMessages cause ((final x (m.state store env)).log.drop m.log.length)
    log := (final x (m.state store env)).log
    alive := survives (x (m.state store env)) }

theorem exec_alive {store : Store} {env : Env} {cause : Option Block} {x : M Unit} (alive : m.alive = true) :
    m.exec store env cause x = (m.handled store env cause x, (final x (m.state store env)).store) := if_pos alive

theorem exec_dead {store : Store} {env : Env} {cause : Option Block} {x : M Unit} (dead : m.alive = false) :
    m.exec store env cause x = (m, store) := if_neg (by simp [dead])

/-- A message is handled, or lost. -/
theorem exec_cases (store : Store) (env : Env) (cause : Option Block) (x : M Unit) :
    m.exec store env cause x = (m, store) ∨
      m.alive = true ∧ m.exec store env cause x = (m.handled store env cause x, (final x (m.state store env)).store) := by
  cases alive : m.alive with
  | false => exact .inl (exec_dead alive)
  | true => exact .inr ⟨rfl, exec_alive alive⟩

/-- What is on its way to the synchronizer was so before, or has been sent by the core meanwhile. -/
theorem mem_handled_inner {store : Store} {env : Env} {cause : Option Block} {x : M Unit} {more : List Event}
    {entry : SynchronizerMessage × Option Block} (log : (final x (m.state store env)).log = m.log ++ more)
    (mem : entry ∈ (m.handled store env cause x).inner) : entry ∈ m.inner ∨ .inner entry.1 ∈ more ∧ entry.2 = cause := by
  rcases List.mem_append.mp mem with old | new
  · exact .inl old
  · rw [log, List.drop_left] at new
    obtain ⟨e, logged, found⟩ := List.mem_filterMap.mp new
    split at found
    · obtain rfl := Option.some.inj found
      exact .inr ⟨logged, rfl⟩
    · contradiction

theorem exec_grows [Crypto] {store : Store} {env : Env} {cause : Option Block} {x : M Unit} {Q : Unit → State → Prop}
    (h : Leads (Evolves trusted (HeightOf cause)) x (m.state store env) Q) :
    Grows trusted m store (m.exec store env cause x).1 (m.exec store env cause x).2 := by
  cases alive : m.alive with
  | false =>
      rw [exec_dead alive]
      exact (TaskFrame.same rfl rfl rfl rfl).grows store fun _ mem => mem
  | true =>
      have reach := h.final
      obtain ⟨more, log, cleans⟩ := reach.log
      rw [exec_alive alive]
      refine ⟨fun env' => ?_, fun p mem => .inl mem, fun entry mem => ?_⟩
      · have reached : Evolves trusted (HeightOf cause) (m.state store env')
            ((m.handled store env cause x).state (final x (m.state store env)).store env') :=
          ⟨reach.name, reach.committee, reach.parameters, reach.log, reach.kept, reach.written, reach.queued, reach.origin⟩
        exact reached.weaken
      · refine (mem_handled_inner log mem).imp_right fun ⟨sent, caused⟩ r same => ?_
        rw [same] at sent
        rw [caused]
        exact cleans r sent

theorem client_grows [Crypto] (tx : List UInt8) (store : Store) : Grows trusted m store (m.client tx) store := by
  unfold client
  rcases m.maker.add tx with ⟨_ | payload, maker⟩
  · exact ⟨fun _ => ⟨rfl, rfl, rfl, Evolves.silent, fun _ h => h, fun _ _ h => .inl h, fun _ h => .inl h,
      fun _ h => .inl h⟩, fun p mem => .inl mem, fun _ mem => .inl mem⟩
  · refine ⟨fun env => ?_, fun p mem => ?_, fun _ mem => .inl mem⟩
    · have step : Evolves trusted (fun _ => True) (m.state store env)
          { m.state store env with log := m.log ++ [.made payload] } := evolves_emit (by simp) (by simp)
      exact ⟨rfl, rfl, rfl, step.log, fun _ h => h, fun _ _ h => .inl h, fun _ h => .inl h, step.origin⟩
    · rcases List.mem_append.mp mem with old | new
      · exact .inl old
      · rw [List.mem_singleton.mp new]
        exact .inr (List.mem_append_right _ List.mem_cons_self)

theorem step_grows [Crypto] [PayloadBincode] (store : Store) (input : MempoolInput) :
    Grows (OwnIn m input) m store (m.step store input).1 (m.step store input).2 := by
  have still : Grows (OwnIn m input) m store m store := (TaskFrame.same rfl rfl rfl rfl).grows store fun _ mem => mem
  have tasks : Grows (OwnIn m input) m store (if m.synchronizer.alive then m.task store input else m) store := by
    split
    · exact (task_frame (m := m) store input).grows store (task_inner store input)
    · exact still
  cases input with
  | client tx => exact client_grows tx store
  | own env =>
      unfold step
      dsimp only
      cases waiting : m.own with
      | nil => exact still
      | cons payload rest =>
          have trust : ∀ p, MempoolMessage.ownPayload payload = .ownPayload p → OwnIn m (.own env) p := by
            intro p same
            obtain rfl : payload = p := by simpa using same
            exact .inl (by simp [waiting])
          have handled : Leads (Evolves (OwnIn m (.own env)) (HeightOf none)) (Core.handleMessage (.ownPayload payload))
              (({ m with own := rest } : HotstuffDag.Mempool).state store env) (fun _ _ => True) :=
            leads_handleMessage _ trust
          have grows := exec_grows handled
          refine ⟨grows.evolves, fun p mem => ?_, grows.inner⟩
          exact (grows.own p mem).imp_left fun mem => waiting ▸ List.mem_cons_of_mem _ mem
  | network message env =>
      have trust : ∀ p, message = .ownPayload p → OwnIn m (.network message env) p := fun p same => .inr ⟨env, same ▸ rfl⟩
      exact exec_grows (leads_handleMessage message trust)
  | call call env =>
      refine exec_grows (leads_handleConsensus call.message fun digests round same => ?_)
      cases call with
      | get max | verify block => contradiction
      | cleanup b0 =>
          obtain ⟨-, rfl⟩ := ConsensusMempoolMessage.cleanup.inj same
          exact ⟨b0, rfl, rfl⟩
  | inner now | finish id | cancel id | fail id | tick now => exact tasks

end HotstuffDag.Mempool
