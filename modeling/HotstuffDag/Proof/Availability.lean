import HotstuffDag.Proof.Invariant
import HotstuffDag.Proof.PayloadOrigin

/-! # Which payloads are available

Consensus writes blocks and the mempool writes payloads under their digests into one store, and
`verify_payload` looks at keys only. -/

namespace HotstuffDag
open Library
variable [Crypto]

def Value.digest : Value → Digest
  | .block b => b.digest
  | .payload p => p.digest

/-- Everything is stored under its own digest. -/
def Store.Filed (store : Store) : Prop := ∀ d v, store.get? d = some v → v.digest = d

omit [Crypto] in
theorem Store.not_payload {store : Store} {d : Digest} {b : Block} {p : Payload} (block : store.get? d = some (.block b)) :
    store.get? d ≠ some (.payload p) := by
  rw [block]
  simp

/-- What is stored is a payload, or a block that the core has processed or that was there at first. -/
def Accounted (first : Store) (k : Core) (l : List Event) : Prop :=
  ∀ d v, k.store.get? d = some v → v.digest = d ∧
    ∀ b, v = .block b → Event.process b ∈ l ∨ first.get? d = some (.block b)

variable {first : Store} {k : Core} {l l' : List Event} {host : Host}

theorem Accounted.mono (h : Accounted first k l) (le : l <+: l') : Accounted first k l' := by
  intro d v found
  obtain ⟨digest, source⟩ := h d v found
  exact ⟨digest, fun b block => (source b block).imp_left fun mem => le.subset mem⟩

/-- A value whose reason is known may be added. -/
theorem Accounted.insert (h : Accounted first k l) {v : Value} (why : ∀ b, v = .block b → Event.process b ∈ l) :
    Accounted first { k with store := k.store.insert v.digest v } l := by
  intro d v' found
  rw [Map.get?_insert] at found
  split at found
  · next same =>
      obtain rfl := Option.some.inj found
      exact ⟨same, fun b block => .inl (why b block)⟩
  · exact h d v' found

theorem accountedInvariant [Bincode] (ok : Input → Prop) (first : Store) : Invariant ok fun _ k l => Accounted first k l where
  act := by
    intro s s' names act h
    have kept := h.mono act.frame.log
    rcases act.store with same | ⟨b, -, processed, held⟩
    · intro d v found
      rw [same] at found
      exact kept d v found
    · have added := kept.insert (v := .block b) fun b' block => by
        rw [← Value.block.inj block]
        exact processed
      intro d v found
      rw [held] at found
      exact added d v found
  blind := fun _ _ h => h
  makePayload := fun _ h => h.mono (List.prefix_append _ _)
  storePayload := fun payload _ h => h.insert (v := .payload payload) fun _ block => by contradiction

namespace Host

/-- Consensus has stored the block, in this run or before it. -/
def HoldsBlock (first : Store) (host : Host) (b : Block) : Prop :=
  Event.process b ∈ host.node.log ∨ first.get? b.digest = some (.block b)

def Accounts (first : Store) (host : Host) : Prop := host.node.Sound fun _ k l => Accounted first k l

theorem Accounts.step [Bincode] [Mempool.PayloadBincode] (h : host.Accounts first) (input : HostInput) :
    (host.step input).Accounts first := by
  cases input with
  | consensus channel message env => exact (accountedInvariant (fun _ => True) first).step trivial h
  | mempool input =>
      have evolves := (Mempool.step_grows (m := host.mempool) host.store input).evolves ⟨[], 0, 0, .listed, .listed⟩
      have stored {k : Core} (same : k.store = host.store) (holds : Accounted first k host.node.log) :
          Accounted first { k with store := (host.mempool.step host.store input).2 } host.node.log := by
        intro d v found
        rcases evolves.written d v found with old | ⟨p, rfl, digest, -⟩
        · exact holds d v (by rw [same]; exact old)
        · exact ⟨digest, fun b block => by contradiction⟩
      refine ⟨fun alive => ?_, host.node.core.pubkeyToChain.get?, ?_⟩
      · have closed := h.1 alive
        exact ⟨closed.names, closed.own, stored rfl closed.holds⟩
      · obtain ⟨-, holds⟩ := h.2
        exact stored rfl holds

theorem Accounts.run [Bincode] [Mempool.PayloadBincode] (h : host.Accounts first) (inputs : List HostInput) :
    (host.run inputs).Accounts first := by
  induction inputs generalizing host with
  | nil => exact h
  | cons input rest ih => exact ih (h.step input)

theorem accounts_start [Bincode] (name : PublicKey) (committee : Committee) (parameters : Parameters) (filed : first.Filed)
    (env : Env) (mempool : Mempool) : (start (.new name committee parameters first) env mempool).Accounts first :=
  (accountedInvariant (fun _ => True) first).init fun d v found =>
    ⟨filed d v found, fun _ block => .inr (block ▸ found)⟩

end Host

namespace Mempool

/-- `verify_payload` returns `Ok(true)`. -/
def Accepts (m : Mempool) (store : Store) (env : Env) (block : Block) : Prop :=
  ∃ s, Core.verifyPayload block (m.state store env) = .ok true s

theorem Accepts.present {m : Mempool} {store : Store} {env : Env} {block : Block} (h : m.Accepts store env block) :
    ∀ d ∈ block.payload, store.contains d = true := by
  obtain ⟨s, accepted⟩ := h
  have verified : Library.Exec.Leads (Evolves (fun _ => False) fun _ => False) (Core.verifyPayload block) (m.state store env)
      fun answer _ => answer = true → ∀ d ∈ block.payload, store.contains d = true := leads_verifyPayload block
  unfold Library.Exec.Leads at verified
  rw [accepted] at verified
  exact verified.2 rfl

end Mempool

/-- A block that lists no block of consensus is accepted only with all of its payloads. -/
theorem Host.available [Bincode] [Mempool.PayloadBincode] (name : PublicKey) (committee : Committee) (parameters : Parameters)
    (first : Store)
    (filed : first.Filed) (env : Env) (mempool : Mempool) (inputs : List HostInput) (env' : Mempool.Env) (block : Block)
    (accepted : ((start (.new name committee parameters first) env mempool).run inputs).mempool.Accepts
      ((start (.new name committee parameters first) env mempool).run inputs).store env' block)
    (proper : ∀ b, ((start (.new name committee parameters first) env mempool).run inputs).HoldsBlock first b →
      b.digest ∉ block.payload) :
    ∀ d ∈ block.payload, ∃ p, p.digest = d ∧
      ((start (.new name committee parameters first) env mempool).run inputs).store.get? d = some (.payload p) := by
  intro d listed
  have present := accepted.present d listed
  obtain ⟨-, accounted⟩ := ((accounts_start name committee parameters filed env mempool).run inputs).2
  obtain ⟨v, found⟩ := Option.isSome_iff_exists.mp present
  obtain ⟨digest, source⟩ := accounted d v found
  cases v with
  | payload p => exact ⟨p, digest, found⟩
  | block b =>
      have same : b.digest = d := digest
      subst same
      exact absurd listed (proper b (source b rfl))

end HotstuffDag

namespace HotstuffDag.Sample
open Library

instance (m : Mempool) (store : Store) (env : Mempool.Env) (block : Block) : Decidable (m.Accepts store env block) :=
  match h : Mempool.Core.verifyPayload block (m.state store env) with
  | .ok true s => isTrue ⟨s, h⟩
  | .ok false s => isFalse fun ⟨s', h'⟩ => by rw [h] at h'; injection h' with wrong; contradiction
  | .error e s => isFalse fun ⟨s', h'⟩ => by rw [h] at h'; contradiction

/-- The first proposal of another authority has been stored. -/
def proposed : Host := (host 1).run [.consensus .core (.propose (firstBlock 2)) env]

/-- It lists a block as a payload. -/
def listing : Block := Block.new QC.genesis (key 3) 1 0 [(firstBlock 2).digest] []

theorem listed_block_accepted :
    proposed.mempool.Accepts proposed.store mempoolEnv listing ∧ (firstBlock 2).digest ∈ listing.payload ∧
      ¬ ∃ p, p.digest = (firstBlock 2).digest ∧ proposed.store.get? (firstBlock 2).digest = some (.payload p) := by
  refine ⟨by decide +kernel, List.mem_cons_self, ?_⟩
  have block : proposed.store.get? (firstBlock 2).digest = some (.block (firstBlock 2)) := by decide +kernel
  exact fun ⟨_, _, found⟩ => Store.not_payload block found

/-- A block with a payload that has arrived. -/
def supplied : Block := Block.new QC.genesis (key 2) 1 0 [(Payload.new [[3]] (key 2)).digest] []

theorem supplied_available : ∃ p, p.digest = (Payload.new [[3]] (key 2)).digest ∧
    ((host 1).run traffic).store.get? (Payload.new [[3]] (key 2)).digest = some (.payload p) := by
  apply Host.available (key 1) four ⟨500⟩ Map.empty ?_ env (mempool 1) traffic mempoolEnv supplied ?_ ?_
  · exact List.mem_singleton_self _
  · intro d v found
    contradiction
  · show ((host 1).run traffic).mempool.Accepts ((host 1).run traffic).store mempoolEnv supplied
    decide +kernel
  · have all : ∀ b ∈ processedBlocks ((host 1).run traffic).node.log, b.digest ∉ supplied.payload := by decide +kernel
    show ∀ b, ((host 1).run traffic).HoldsBlock Map.empty b → b.digest ∉ supplied.payload
    intro b held
    rcases held with processed | before
    · exact all b (mem_processedBlocks processed)
    · rw [Map.get?_empty] at before
      cases before

end HotstuffDag.Sample
