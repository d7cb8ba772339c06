import HotstuffDag.Proof.PayloadOrigin

/-! # Requests for payloads

`handle_request` ends at the first value that it cannot read as a payload. The store also holds blocks,
so what is listed after the digest of a block is not answered. -/

namespace HotstuffDag.Mempool
open Library Library.Exec
variable {s : State} {store : Store} {address : SocketAddr} {d : Digest} {digests : List Digest}

/-- The payload that a stored value is read as: none where reading fails or panics. -/
def readable [PayloadBincode] : Value → Option Payload
  | .payload p => some p
  | .block b => if PayloadBincode.panicsOn b then none else PayloadBincode.payloadOfBlock b

/-- What a request is sent for a digest. -/
def answer [PayloadBincode] (store : Store) (address : SocketAddr) (d : Digest) : Option Event :=
  ((store.get? d).bind readable).map fun p => .transmit (.payload p) [address]

/-- The loop goes on after the digest. -/
def passes [PayloadBincode] (store : Store) (failed : Bool) (d : Digest) : Bool :=
  !failed && (store.get? d).all fun v => (readable v).isSome

/-- The digests before the first one at which the loop ends. -/
def reached [PayloadBincode] (store : Store) : List Bool → List Digest → List Digest
  | _, [] => []
  | failures, d :: rest => if passes store (failures.headD false) d then d :: reached store failures.tail rest else []

def StoredAsPayload (store : Store) (d : Digest) : Prop := ∃ p, store.get? d = some (.payload p)

/-! ## The loop -/

/-- After one read. -/
def State.afterRead (s : State) : State := { s with env := { s.env with failures := s.env.failures.tail } }

theorem read_ok (works : s.env.failures.headD false = false) : read d s = .ok (s.store.get? d) s.afterRead := by
  obtain ⟨core, maker, store, log, ⟨failures, optCapacity, pesCapacity, optOrder, pesOrder⟩⟩ := s
  cases failures with
  | nil => rfl
  | cons failed rest =>
      change failed = false at works
      subst works
      rfl

theorem read_fails (fails : s.env.failures.headD false = true) : read d s = .error (.error .storeError) s.afterRead := by
  obtain ⟨core, maker, store, log, ⟨failures, optCapacity, pesCapacity, optOrder, pesOrder⟩⟩ := s
  cases failures with
  | nil => cases fails
  | cons failed rest =>
      change failed = true at fails
      subst fails
      rfl

theorem decodePayload_some [PayloadBincode] {value : Value} {p : Payload} (h : readable value = some p) :
    Core.decodePayload value s = .ok p s := by
  unfold readable at h
  unfold Core.decodePayload
  cases value with
  | payload q =>
      rw [Option.some.inj h]
      rfl
  | block b =>
      dsimp only at h ⊢
      split at h
      · cases h
      · next reads =>
          rw [if_neg reads, h]
          rfl

theorem decodePayload_none [PayloadBincode] {value : Value} (h : readable value = none) :
    ∃ e, Core.decodePayload value s = .error e s := by
  unfold readable at h
  unfold Core.decodePayload
  cases value with
  | payload q => cases h
  | block b =>
      dsimp only at h ⊢
      split at h
      · next panics => exact ⟨.panic, by rw [if_pos panics]; rfl⟩
      · next reads => exact ⟨.error .serializationError, by rw [if_neg reads, h]; rfl⟩

theorem transmit_known {message : MempoolMessage} {requestor : PublicKey}
    (known : s.core.committee.mempoolAddress requestor = .ok address) :
    transmit message (some requestor) s = .ok ⟨⟩ { s with log := s.log ++ [.transmit message [address]] } := by
  unfold transmit
  rw [bind_eq, get_run]
  dsimp only
  rw [known]
  rfl

/-- What the loop sends. -/
theorem handleRequest_log [PayloadBincode] (digests : List Digest) {requestor : PublicKey}
    (known : s.core.committee.mempoolAddress requestor = .ok address) :
    (final (Core.handleRequest digests requestor) s).log =
      s.log ++ (reached s.store s.env.failures digests).filterMap (answer s.store address) := by
  induction digests generalizing s with
  | nil => exact (List.append_nil _).symm
  | cons d rest ih =>
      unfold Core.handleRequest reached passes Exec.final
      cases fails : s.env.failures.headD false with
      | true =>
          rw [bind_eq, read_fails fails]
          exact (List.append_nil _).symm
      | false =>
          rw [bind_eq, read_ok fails]
          cases found : s.store.get? d with
          | none =>
              dsimp only
              refine (ih (s := s.afterRead) known).trans ?_
              simp [answer, found, State.afterRead]
          | some value =>
              dsimp only
              rw [bind_eq]
              cases reads : readable value with
              | none =>
                  obtain ⟨e, ends⟩ := decodePayload_none (s := s.afterRead) reads
                  rw [ends]
                  simp [reads, State.afterRead]
              | some p =>
                  rw [decodePayload_some reads]
                  dsimp only
                  rw [bind_eq, transmit_known (s := s.afterRead) known]
                  refine (ih (s := { s.afterRead with log := _ }) known).trans ?_
                  simp [answer, found, reads, State.afterRead]

/-! ## Which digests are reached -/

/-- The loop ends at a digest that it does not pass, or at the end of the list. -/
theorem reached_split [PayloadBincode] (store : Store) (failures : List Bool) (digests : List Digest) :
    ∃ rest, digests = reached store failures digests ++ rest ∧
      (∀ i d, (reached store failures digests)[i]? = some d → passes store (failures.getD i false) d = true) ∧
      ∀ d, rest.head? = some d → passes store (failures.getD (reached store failures digests).length false) d = false := by
  induction digests generalizing failures with
  | nil => exact ⟨[], rfl, by simp [reached], by simp⟩
  | cons d rest ih =>
      have head : failures.headD false = failures.getD 0 false := by cases failures <;> rfl
      have tail (i : Nat) : failures.tail.getD i false = failures.getD (i + 1) false := by cases failures <;> simp
      unfold reached
      split
      · next first =>
          obtain ⟨rest', split, before, after⟩ := ih failures.tail
          refine ⟨rest', by rw [List.cons_append, ← split], ?_, ?_⟩
          · intro i x found
            cases i with
            | zero =>
                rw [← Option.some.inj found, ← head]
                exact first
            | succ i =>
                rw [← tail]
                exact before i x found
          · intro x found
            rw [List.length_cons, ← tail]
            exact after x found
      · next first =>
          refine ⟨d :: rest, rfl, by simp, ?_⟩
          intro x found
          rw [← Option.some.inj found, List.length_nil, ← head]
          simpa using first

/-- A stored payload is answered. -/
theorem answer_payload [PayloadBincode] (address : SocketAddr) (h : StoredAsPayload store d) :
    ∃ e, answer store address d = some e := by
  obtain ⟨p, found⟩ := h
  exact ⟨_, by rw [answer, found]; rfl⟩

/-- Every digest that is stored as a payload is answered with one message: the loop answers a part of the
list, and no payload is in the other part. -/
def Served [PayloadBincode] (s : State) (digests : List Digest) (requestor : PublicKey) (address : SocketAddr) : Prop :=
  ∃ answered ignored, digests = answered ++ ignored ∧ (∀ d ∈ ignored, ¬ StoredAsPayload s.store d) ∧
    (final (Core.handleRequest digests requestor) s).log = s.log ++ answered.filterMap (answer s.store address)

/-- Before a payload, and at it, no read fails and no block is listed that does not read as a payload. -/
def Unobstructed [PayloadBincode] (s : State) (digests : List Digest) : Prop :=
  ∀ j d, digests[j]? = some d → StoredAsPayload s.store d →
    ∀ i ≤ j, ∀ d', digests[i]? = some d' → passes s.store (s.env.failures.getD i false) d' = true

/-- Payload requests are answered whole exactly when nothing before a payload ends the loop. -/
theorem request_served_iff [PayloadBincode] (digests : List Digest) (requestor : PublicKey)
    (known : s.core.committee.mempoolAddress requestor = .ok address) :
    Served s digests requestor address ↔ Unobstructed s digests := by
  obtain ⟨rest, split, before, after⟩ := reached_split s.store s.env.failures digests
  generalize past : reached s.store s.env.failures digests = front at split before after
  have log := handleRequest_log digests known
  rw [past] at log
  constructor
  · rintro ⟨answered, ignored, split', none, log'⟩
    rw [log, List.append_cancel_left_eq] at log'
    -- What the loop does not reach has no payload.
    have unreached : ∀ d ∈ rest, ¬ StoredAsPayload s.store d := by
      rcases List.append_eq_append_iff.mp (split.symm.trans split') with ⟨more, rfl, rfl⟩ | ⟨more, rfl, rfl⟩
      · rw [List.filterMap_append, List.self_eq_append_right, List.filterMap_eq_nil_iff] at log'
        intro d mem payload
        rcases List.mem_append.mp mem with answered | ignored
        · obtain ⟨e, sent⟩ := answer_payload address payload
          rw [log' d answered] at sent
          cases sent
        · exact none d ignored payload
      · exact fun d mem => none d (List.mem_append_right _ mem)
    intro j d at_ payload i le d' at'
    have inside : j < front.length := by
      by_contra outside
      rw [split, List.getElem?_append_right (Nat.not_lt.mp outside)] at at_
      exact unreached d (List.mem_of_getElem? at_) payload
    rw [split, List.getElem?_append_left (Nat.lt_of_le_of_lt le inside)] at at'
    exact before i d' at'
  · intro clear
    refine ⟨front, rest, split, ?_, log⟩
    intro d mem payload
    cases rest with
    | nil => cases mem
    | cons first others =>
        obtain ⟨k, at_⟩ := List.mem_iff_getElem?.mp mem
        have stops := after first rfl
        have position : digests[front.length + k]? = some d := by
          rw [split, List.getElem?_append_right (Nat.le_add_right _ _), Nat.add_sub_cancel_left]
          exact at_
        have here : digests[front.length]? = some first := by
          rw [split, List.getElem?_append_right le_rfl, Nat.sub_self]
          rfl
        rw [clear _ d position payload front.length (Nat.le_add_right _ _) first here] at stops
        cases stops

end HotstuffDag.Mempool

namespace HotstuffDag.Sample
open Library HotstuffDag.Mempool

def delivered : Payload := .new [[3]] (key 2)

def writtenBlock : Block := above (firstBlock 2)

/-- Of a block that is not stored. -/
def firstDigest : Digest := (firstBlock 2).digest

/-- A store that consensus has written a block to, and the mempool a payload. -/
def sharedStore : Store := (Map.empty.insert writtenBlock.digest (.block writtenBlock)).insert delivered.digest (.payload delivered)

def requestState : Mempool.State := HotstuffDag.Mempool.state (mempool 1) sharedStore mempoolEnv

theorem delivered_stored : StoredAsPayload sharedStore delivered.digest := ⟨delivered, Map.get?_insert_self _ _ _⟩

/-- An unknown digest is listed before the payload, and the block after it. -/
theorem payload_served : Served requestState [firstDigest, delivered.digest, writtenBlock.digest] (key 2) "" := by
  apply (request_served_iff [firstDigest, delivered.digest, writtenBlock.digest] (key 2) (by decide +kernel)).mpr
  intro j d at_ payload i le d' at'
  have early : i ≤ 1 := by
    by_contra late
    have last : d = writtenBlock.digest := by
      have bound := (List.getElem?_eq_some_iff.mp at_).1
      have third : j = 2 := by simp only [List.length_cons, List.length_nil] at bound; omega
      rw [third] at at_
      exact (Option.some.inj at_).symm
    obtain ⟨p, stored⟩ := payload
    have block : requestState.store.get? writtenBlock.digest = some (.block writtenBlock) := by decide +kernel
    rw [last, block] at stored
    cases stored
  rcases Nat.le_one_iff_eq_zero_or_eq_one.mp early with rfl | rfl
  · rw [← Option.some.inj at']
    decide +kernel
  · rw [← Option.some.inj at']
    decide +kernel

/-- A block is asked for as well, and listed first. -/
theorem payload_withheld :
    ¬ Served requestState [writtenBlock.digest, delivered.digest] (key 2) "" ∧
      requestState.core.committee.mempoolAddress (key 2) = .ok "" ∧
      StoredAsPayload requestState.store delivered.digest ∧
      (Exec.final (Mempool.Core.handleRequest [writtenBlock.digest, delivered.digest] (key 2)) requestState).log = [] := by
  have silent : (Exec.final (Mempool.Core.handleRequest [writtenBlock.digest, delivered.digest] (key 2)) requestState).log =
      [] := by decide +kernel
  refine ⟨?_, by decide +kernel, delivered_stored, silent⟩
  rintro ⟨answered, ignored, split, none, log⟩
  rw [silent] at log
  have unanswered := List.filterMap_eq_nil_iff.mp (List.append_eq_nil_iff.mp log.symm).2
  have listed : delivered.digest ∈ answered ++ ignored := by
    rw [← split]
    exact List.mem_cons_of_mem _ List.mem_cons_self
  rcases List.mem_append.mp listed with before | after
  · obtain ⟨e, sent⟩ := answer_payload "" delivered_stored
    have nothing := unanswered _ before
    rw [show requestState.store = sharedStore from rfl, sent] at nothing
    cases nothing
  · exact none _ after delivered_stored

end HotstuffDag.Sample
