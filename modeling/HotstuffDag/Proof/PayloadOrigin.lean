import HotstuffDag.Proof.Mempool
import HotstuffDag.Sample

/-! # Where stored payloads come from

The payload maker and the network share a channel of the mempool core, so an own payload is only as
good as its sender. -/

namespace HotstuffDag
open Library
variable [Crypto]

namespace Mempool
variable {m m' : Mempool} {store store' : Store} {input : MempoolInput}

/-- The payload maker has made the payload, or it passes the checks for payloads of others. -/
def Known (m : Mempool) (p : Payload) : Prop := .made p ∈ m.log ∨ m.core.Authentic p

instance (m : Mempool) (p : Payload) : Decidable (m.Known p) := inferInstanceAs (Decidable (_ ∨ _))

structure Sound (m : Mempool) : Prop where
  stored : ∀ p, .stored p ∈ m.log → m.Known p
  queued : ∀ d, m.core.queued d → ∃ p, p.digest = d ∧ .stored p ∈ m.log
  own : ∀ p ∈ m.own, .made p ∈ m.log

theorem sound_new (name : PublicKey) (committee : Committee) (parameters : Parameters) :
    (new name committee parameters).Sound where
  stored := fun _ mem => absurd mem List.not_mem_nil
  queued := fun _ mem => absurd mem (not_or.mpr ⟨HashSet.notMem_empty, HashSet.notMem_empty⟩)
  own := fun _ mem => absurd mem List.not_mem_nil

/-- An own payload that arrives from the network is known. -/
def Trusted (m : Mempool) : MempoolInput → Prop
  | .network (.ownPayload p) _ => m.Known p
  | _ => True

theorem Sound.step [Mempool.PayloadBincode] (sound : m.Sound) (trusted : m.Trusted input) : (m.step store input).1.Sound := by
  have grows := step_grows (m := m) store input
  have evolves := grows.evolves ⟨[], 0, 0, .listed, .listed⟩
  have kept {e : Event} (mem : e ∈ m.log) : e ∈ (m.step store input).1.log := evolves.mem mem
  have authentic {p : Payload} : m.core.Authentic p → (m.step store input).1.core.Authentic p :=
    (Core.authentic_congr evolves.committee evolves.parameters).mpr
  have known {p : Payload} : m.Known p → (m.step store input).1.Known p := Or.imp kept authentic
  refine ⟨fun p mem => ?_, fun d mem => ?_, fun p mem => ?_⟩
  · rcases evolves.origin p mem with old | made | own | checked
    · exact known (sound.stored p old)
    · exact .inl made
    · rcases own with waiting | ⟨env, rfl⟩
      · exact .inl (kept (sound.own p waiting))
      · exact known trusted
    · exact .inr (authentic checked)
  · rcases evolves.queued d mem with old | new
    · obtain ⟨p, digest, stored⟩ := sound.queued d old
      exact ⟨p, digest, kept stored⟩
    · exact new
  · rcases grows.own p mem with old | made
    · exact kept (sound.own p old)
    · exact made

end Mempool

namespace Host

/-- Own payloads that arrive from the network are known to the mempool. -/
def Trusted [Bincode] [Mempool.PayloadBincode] : Host → List HostInput → Prop
  | _, [] => True
  | host, .mempool input :: rest => host.mempool.Trusted input ∧ (host.step (.mempool input)).Trusted rest
  | host, .consensus channel message env :: rest => (host.step (.consensus channel message env)).Trusted rest

theorem sound_run [Bincode] [Mempool.PayloadBincode] {host : Host} {inputs : List HostInput} (sound : host.mempool.Sound)
    (trusted : host.Trusted inputs) :
    (host.run inputs).mempool.Sound := by
  induction inputs generalizing host with
  | nil => exact sound
  | cons input rest ih =>
      cases input with
      | consensus channel message env => exact ih sound trusted
      | mempool input => exact ih (sound.step trusted.1) trusted.2

/-- What the mempool stores and queues was made by its payload maker or has been checked. -/
theorem payloads_known [Bincode] [Mempool.PayloadBincode] (core : Core) (env : Env) (name : PublicKey) (committee : Mempool.Committee)
    (parameters : Mempool.Parameters) (inputs : List HostInput)
    (trusted : (start core env (.new name committee parameters)).Trusted inputs) :
    (∀ p, .stored p ∈ ((start core env (.new name committee parameters)).run inputs).mempool.log →
      ((start core env (.new name committee parameters)).run inputs).mempool.Known p) ∧
    ∀ d, ((start core env (.new name committee parameters)).run inputs).mempool.core.queued d →
      ∃ p, p.digest = d ∧ ((start core env (.new name committee parameters)).run inputs).mempool.Known p := by
  have sound := sound_run (Mempool.sound_new name committee parameters) trusted
  refine ⟨sound.stored, fun d mem => ?_⟩
  obtain ⟨p, digest, stored⟩ := sound.queued d mem
  exact ⟨p, digest, sound.stored p stored⟩

end Host
end HotstuffDag

namespace HotstuffDag.Sample
open Library

/-- No block reads as a payload. The zeros of the genesis hash are read as no transactions and a key of no length. -/
instance payloadBincode : Mempool.PayloadBincode := ⟨fun _ => none, fun b => b.qc.hash = QC.genesis.hash⟩

def mempoolCommittee : Mempool.Committee := ⟨[⟨key 1, ""⟩, ⟨key 2, ""⟩, ⟨key 3, ""⟩, ⟨key 4, ""⟩], by decide⟩

/-- No read fails, and the queues have room. -/
def mempoolEnv : Mempool.Env := ⟨[], 100, 100, .listed, .listed⟩

def mempool (n : Nat) : Mempool := .new (key n) mempoolCommittee ⟨100, 10000, 500⟩

def host (n : Nat) : Host := .start (core n) env (mempool n)

/-- Of an author that nobody knows, and not signed. -/
def junk : Payload := ⟨[[1]], key 9, Signature.zero⟩

theorem junk_is_stored :
    .stored junk ∈ ((host 1).run [.mempool (.network (.ownPayload junk) mempoolEnv)]).mempool.log ∧
      ((host 1).run [.mempool (.network (.ownPayload junk) mempoolEnv)]).mempool.core.queued junk.digest ∧
      ¬ ((host 1).run [.mempool (.network (.ownPayload junk) mempoolEnv)]).mempool.Known junk := by
  refine ⟨by decide +kernel, .inl ?_, by decide +kernel⟩
  decide +kernel

/-- A payload of another authority arrives. -/
def others (p : Payload) : HostInput := .mempool (.network (.payload p) mempoolEnv)

/-- Transactions of clients, and a payload of another authority. -/
def traffic : List HostInput :=
  [.mempool (.client [1]), .mempool (.client (List.replicate 500 2)), .mempool (.own mempoolEnv),
    others (.new [[3]] (key 2))]

theorem traffic_known :
    .stored (Payload.new [[3]] (key 2)) ∈ ((host 1).run traffic).mempool.log ∧
      ((host 1).run traffic).mempool.Known (Payload.new [[3]] (key 2)) := by
  have stored : .stored (Payload.new [[3]] (key 2)) ∈ ((host 1).run traffic).mempool.log := by decide +kernel
  unfold host mempool at stored ⊢
  refine ⟨stored, (Host.payloads_known (core 1) env (key 1) mempoolCommittee ⟨100, 10000, 500⟩ traffic ?_).1 _ stored⟩
  exact ⟨trivial, trivial, trivial, trivial, trivial⟩

end HotstuffDag.Sample
