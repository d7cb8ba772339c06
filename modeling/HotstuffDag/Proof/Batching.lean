import HotstuffDag.Proof.LocalPayloads

/-! # What batching keeps

A transaction is in the buffer until it leaves in a payload. A payload that is made on request and has no bytes is
dropped, and with it only empty transactions. -/

namespace HotstuffDag.Mempool

section
variable {r : Runner} {requests : List Runner.Request}

namespace Runner

/-- The payload of a turn of the loop that somebody gets: one that `add` makes goes to the core, one that is made on
request to who asked, unless `PayloadMaker::make` drops it. -/
def emits [Crypto] (r : Runner) : Request → Option Payload
  | .client tx => (r.add tx).1
  | .make => answer r.make.1

def emitted [Crypto] : Runner → List Request → List Payload
  | _, [] => []
  | r, request :: rest => (r.emits request).toList ++ (r.step request).2.emitted rest

/-- The transactions that come in. -/
def received (requests : List Request) : List (List UInt8) :=
  requests.filterMap fun
    | .client tx => some tx
    | .make => none

/-- The transactions that have a byte. -/
def nonempty (transactions : List (List UInt8)) : List (List UInt8) := transactions.filter (· ≠ [])

theorem nonempty_append (first second : List (List UInt8)) : nonempty (first ++ second) = nonempty first ++ nonempty second :=
  List.filter_append _ _

/-- A list without bytes has empty transactions only. -/
theorem nonempty_eq_nil {transactions : List (List UInt8)} (light : bytes transactions = 0) : nonempty transactions = [] := by
  apply List.filter_eq_nil_iff.mpr
  intro tx mem
  have short : tx.length = 0 := List.sum_eq_zero_iff_forall_eq_nat.mp light _ (List.mem_map_of_mem mem)
  simpa using List.length_eq_zero_iff.mp short

/-- In a turn nothing but empty transactions gets lost, and nothing overtakes. -/
theorem kept_step [Crypto] (r : Runner) (request : Request) :
    nonempty ((r.emits request).toList.flatMap Payload.transactions ++ (r.step request).2.transactions) =
      nonempty (r.transactions ++ received [request]) := by
  cases request with
  | client tx =>
      show nonempty ((r.add tx).1.toList.flatMap Payload.transactions ++ (r.add tx).2.transactions) = nonempty (r.transactions ++ [tx])
      unfold add
      split
      · simp [make, push, Payload.new]
      · simp [push]
  | make =>
      show nonempty ((answer r.make.1).toList.flatMap Payload.transactions ++ []) = nonempty (r.transactions ++ [])
      unfold answer
      split
      · rename_i light
        have empty : nonempty r.transactions = [] := nonempty_eq_nil light
        simpa [nonempty] using empty.symm
      · simp [make, Payload.new]

theorem received_cons (request : Request) (rest : List Request) : received (request :: rest) = received [request] ++ received rest := by
  show received ([request] ++ rest) = _
  apply List.filterMap_append

theorem kept_run [Crypto] (r : Runner) (requests : List Request) :
    nonempty ((r.emitted requests).flatMap Payload.transactions ++ (r.run requests).transactions) =
      nonempty (r.transactions ++ received requests) := by
  induction requests generalizing r with
  | nil => simp [emitted, run, received]
  | cons request rest ih =>
      have now := kept_step r request
      have later := ih (r.step request).2
      rw [nonempty_append] at now
      rw [nonempty_append (r.step request).2.transactions] at later
      calc nonempty ((r.emitted (request :: rest)).flatMap Payload.transactions ++ (r.run (request :: rest)).transactions)
          = nonempty ((r.emits request).toList.flatMap Payload.transactions) ++
              nonempty (((r.step request).2.emitted rest).flatMap Payload.transactions ++ ((r.step request).2.run rest).transactions) := by
            rw [emitted, List.flatMap_append, List.append_assoc, nonempty_append]
            rfl
        _ = nonempty (r.transactions ++ received [request]) ++ nonempty (received rest) := by
            rw [later, ← List.append_assoc, now]
        _ = nonempty (r.transactions ++ received (request :: rest)) := by
            rw [← nonempty_append, List.append_assoc, ← received_cons]

end Runner

/-- The payloads and then the buffer have the transactions that came in, in their order, and the counter is the length
of the buffer. -/
theorem Runner.transactions_kept [Crypto] (name : PublicKey) (maxSize : Nat) (requests : List Runner.Request) :
    Runner.nonempty (((Runner.new name maxSize).emitted requests).flatMap Payload.transactions ++
        ((Runner.new name maxSize).run requests).transactions) = Runner.nonempty (Runner.received requests) ∧
      ((Runner.new name maxSize).run requests).size = Runner.bytes ((Runner.new name maxSize).run requests).transactions :=
  ⟨Runner.kept_run (Runner.new name maxSize) requests, (Runner.counted_run name maxSize requests).size⟩

end
end HotstuffDag.Mempool
