import HotstuffDag.Proof.PayloadOrigin

/-! # Payloads made at a node

The payload maker looks at the size before it adds a transaction, a peer looks at the size of the whole payload. -/

namespace HotstuffDag.Mempool
open Library Library.Exec

section
variable {r : Runner} {requests : List Runner.Request} {tx : List UInt8} {p : Payload}

namespace Runner

/-- The lengths of what is kept. -/
def bytes (transactions : List (List UInt8)) : Nat := (transactions.map List.length).sum

theorem bytes_snoc (transactions : List (List UInt8)) (tx : List UInt8) : bytes (transactions ++ [tx]) = bytes transactions + tx.length := by
  simp [bytes]

variable [Crypto]

theorem size_make (r : Runner) : r.make.1.size = bytes r.transactions := rfl

/-! ## What the buffer holds -/

theorem run_snoc (r : Runner) (requests : List Request) (request : Request) :
    r.run (requests ++ [request]) = ((r.run requests).step request).2 := by
  simp [run]

/-- The counter is the length of the buffer, and the name and the limit stay. -/
structure Counted (start r : Runner) : Prop where
  size : r.size = bytes r.transactions
  name : r.name = start.name
  maxSize : r.maxSize = start.maxSize

omit [Crypto] in
theorem Counted.push {start : Runner} (h : Counted start r) (tx : List UInt8) : Counted start (r.push tx) := by
  constructor
  · show r.size + tx.length = bytes (r.transactions ++ [tx])
    rw [bytes_snoc, h.size]
  · exact h.name
  · exact h.maxSize

theorem Counted.make {start : Runner} (h : Counted start r) : Counted start r.make.2 := ⟨rfl, h.name, h.maxSize⟩

theorem Counted.step {start : Runner} (h : Counted start r) (request : Request) : Counted start (r.step request).2 := by
  cases request with
  | make => exact h.make
  | client tx =>
      show Counted start (r.add tx).2
      unfold add
      split
      · exact h.make.push tx
      · exact h.push tx

theorem counted_run (name : PublicKey) (maxSize : Nat) (requests : List Request) :
    Counted (new name maxSize) ((new name maxSize).run requests) := by
  induction requests using List.reverseRecOn with
  | nil => exact ⟨rfl, rfl, rfl⟩
  | append_singleton requests request ih =>
      rw [run_snoc]
      apply ih.step

/-- After a transaction the buffer holds it, and is too long only if the transaction alone is. -/
theorem after_client {start : Runner} (h : Counted start r) (tx : List UInt8) :
    (r.add tx).2.transactions ≠ [] ∧ (r.maxSize < bytes (r.add tx).2.transactions ↔ r.maxSize < tx.length) := by
  have kept : bytes (r.transactions ++ [tx]) = r.size + tx.length := by rw [bytes_snoc, h.size]
  unfold add
  split
  · refine ⟨List.cons_ne_nil _ _, ?_⟩
    show r.maxSize < bytes [tx] ↔ _
    simp [bytes]
  · rename_i room
    constructor
    · show r.transactions ++ [tx] ≠ []
      simp
    · show r.maxSize < bytes (r.transactions ++ [tx]) ↔ _
      rw [kept]
      omega

/-- The buffer holds something if and only if a transaction came last, and is too long only if that one is. -/
theorem buffer_run (name : PublicKey) (maxSize : Nat) (requests : List Request) :
    (((new name maxSize).run requests).transactions ≠ [] ↔ ∃ previous, requests.getLast? = some (.client previous)) ∧
      ∀ previous, requests.getLast? = some (.client previous) →
        (maxSize < bytes ((new name maxSize).run requests).transactions ↔ maxSize < previous.length) := by
  rcases List.eq_nil_or_concat requests with rfl | ⟨before, last, rfl⟩
  · simp [run, new]
  · rw [List.concat_eq_append, run_snoc]
    cases last with
    | make => simp [step, make]
    | client tx =>
        have here := counted_run name maxSize before
        obtain ⟨filled, long⟩ := after_client here tx
        rw [here.maxSize] at long
        constructor
        · simpa [step] using filled
        · intro previous last
          obtain rfl : tx = previous := by simpa using last
          exact long

/-! ## What is sent -/

theorem mem_sent_iff (r : Runner) (requests : List Request) (p : Payload) :
    p ∈ r.sent requests ↔ ∃ before tx after, requests = before ++ .client tx :: after ∧
      (r.run before).size + tx.length > (r.run before).maxSize ∧ p = (r.run before).make.1 := by
  induction requests generalizing r with
  | nil => simp [sent]
  | cons request rest ih =>
      rw [sent, List.mem_append, ih]
      constructor
      · rintro (first | ⟨before, tx, after, rfl, full, rfl⟩)
        · cases request with
          | make => contradiction
          | client tx =>
              change p ∈ (r.add tx).1.toList at first
              unfold add at first
              split at first
              · rename_i full
                refine ⟨[], tx, rest, rfl, full, ?_⟩
                exact List.mem_singleton.mp first
              · contradiction
        · exact ⟨request :: before, tx, after, rfl, full, rfl⟩
      · rintro ⟨before, tx, after, same, full, rfl⟩
        cases before with
        | nil =>
            obtain ⟨rfl, rfl⟩ := List.cons.inj same
            left
            show (r.make).1 ∈ (r.add tx).1.toList
            unfold add
            rw [if_pos (show r.size + tx.length > r.maxSize from full)]
            exact List.mem_singleton_self _
        | cons first before =>
            obtain ⟨rfl, rfl⟩ := List.cons.inj same
            exact .inr ⟨before, tx, after, rfl, full, rfl⟩

/-- A transaction that is too long comes directly after another one, and the next request asks for the payload. -/
def Placed (maxSize : Nat) (requests : List Request) : Prop :=
  ∀ before tx after, requests = before ++ .client tx :: after → maxSize < tx.length →
    (∃ previous, before.getLast? = some (.client previous)) ∧ ∀ next, after.head? ≠ some (.client next)

/-- A peer of the runner, in any state: it knows the name of the runner and has the same limit. -/
structure Peer (name : PublicKey) (maxSize : Nat) (s : State) : Prop where
  known : s.core.committee.hasAuthority name = true
  limit : s.core.parameters.maxPayloadSize = maxSize

/-- A payload as peers want it. -/
structure Acceptable (name : PublicKey) (maxSize : Nat) (p : Payload) : Prop where
  nonempty : p.transactions ≠ []
  small : p.size ≤ maxSize
  accepted : ∀ s, Peer name maxSize s → ∃ s', Core.handleOthersPayload p s = .ok () s'

end Runner

variable [Crypto]

theorem handleOthersPayload_made {s : State} (r : Runner) (peer : Runner.Peer r.name r.maxSize s) (small : r.make.1.size ≤ r.maxSize) :
    ∃ s', Core.handleOthersPayload r.make.1 s = .ok () s' := by
  have signed : Crypto.verify r.make.1.signature r.make.1.digest r.make.1.author = true := Crypto.verify_sign _ _
  have author : s.core.committee.hasAuthority r.make.1.author = true := peer.known
  have size : r.make.1.size ≤ s.core.parameters.maxPayloadSize := peer.limit ▸ small
  unfold Core.handleOthersPayload
  simp [bind_eq, author, size, signed]

namespace Runner

/-- The payload maker sends only what peers accept if and only if a transaction above the limit never meets an empty buffer
and never stays in it when another one comes. -/
theorem sent_acceptable_iff (name : PublicKey) (maxSize : Nat) (requests : List Request) :
    (∀ p ∈ (new name maxSize).sent requests, Acceptable name maxSize p) ↔ Placed maxSize requests := by
  constructor
  · intro acceptable before tx after same long
    subst same
    have sends {before : List Request} {tx : List UInt8} {after : List Request}
        (full : maxSize < bytes ((new name maxSize).run before).transactions + tx.length) :
        ((new name maxSize).run before).make.1 ∈ (new name maxSize).sent (before ++ .client tx :: after) := by
      have here := counted_run name maxSize before
      apply (mem_sent_iff _ _ _).mpr ⟨before, tx, after, rfl, ?_, rfl⟩
      rw [here.maxSize, here.size]
      exact full
    constructor
    · apply (buffer_run name maxSize before).1.mp
      exact (acceptable _ (sends (Nat.lt_of_lt_of_le long (Nat.le_add_left _ _)))).nonempty
    · intro next follows
      obtain ⟨rest, rfl⟩ := List.head?_eq_some_iff.mp follows
      -- The long transaction is alone in the buffer when the next one comes.
      have alone := ((buffer_run name maxSize (before ++ [.client tx])).2 tx (by simp)).mpr long
      have sent := @sends _ next rest (Nat.lt_of_lt_of_le alone (Nat.le_add_right _ _))
      rw [List.append_assoc] at sent
      exact Nat.not_lt.mpr (acceptable _ sent).small alone
  · intro placed p sent
    obtain ⟨before, tx, after, rfl, full, rfl⟩ := (mem_sent_iff _ _ _).mp sent
    have here := counted_run name maxSize before
    rw [here.maxSize, here.size] at full
    obtain ⟨filled, long⟩ := buffer_run name maxSize before
    have last : ∃ previous, before.getLast? = some (.client previous) := by
      by_contra other
      have empty : ((new name maxSize).run before).transactions = [] := by
        by_contra some
        exact other (filled.mp some)
      rw [empty] at full
      exact other (placed before tx after rfl (by simpa [bytes, new] using full)).1
    have small : bytes ((new name maxSize).run before).transactions ≤ maxSize := by
      obtain ⟨previous, last⟩ := last
      obtain ⟨earlier, rfl⟩ := List.getLast?_eq_some_iff.mp last
      by_contra large
      have alone := (long previous last).mp (Nat.not_le.mp large)
      exact (placed earlier previous (.client tx :: after) (by simp) alone).2 tx rfl
    refine ⟨filled.mpr last, small, fun s peer => ?_⟩
    apply handleOthersPayload_made
    · rw [here.name, here.maxSize]
      exact peer
    · rw [here.maxSize]
      exact small

end Runner

end

/-- The task of the mempool's model is this one. -/
theorem client_step [Crypto] (m : HotstuffDag.Mempool) (tx : List UInt8) :
    (m.client tx).maker = (m.maker.step (.client tx)).2 ∧ (m.client tx).own = m.own ++ (m.maker.step (.client tx)).1.toList := by
  show (m.client tx).maker = (m.maker.add tx).2 ∧ (m.client tx).own = m.own ++ (m.maker.add tx).1.toList
  unfold HotstuffDag.Mempool.client
  rcases m.maker.add tx with ⟨_ | payload, maker⟩
  · exact ⟨rfl, (List.append_nil _).symm⟩
  · exact ⟨rfl, rfl⟩

end HotstuffDag.Mempool

namespace HotstuffDag.Sample
open Mempool

/-- A transaction of one byte too many. -/
def tooLong : Runner.Request := .client [1, 2]

theorem long_payload_rejected :
    (Runner.new (key 1) 1).sent [tooLong, .client [3]] = [.new [] (key 1), .new [[1, 2]] (key 1)] ∧
      Runner.Peer (key 1) 1 (HotstuffDag.Mempool.state (.new (key 2) mempoolCommittee ⟨100, 10000, 1⟩) Library.Map.empty mempoolEnv) ∧
      ∃ s', Mempool.Core.handleOthersPayload (.new [[1, 2]] (key 1))
        (HotstuffDag.Mempool.state (.new (key 2) mempoolCommittee ⟨100, 10000, 1⟩) Library.Map.empty mempoolEnv) =
          .error (.error .payloadTooBig) s' := by
  refine ⟨by decide +kernel, ⟨by decide, rfl⟩, _, rfl⟩

end HotstuffDag.Sample
