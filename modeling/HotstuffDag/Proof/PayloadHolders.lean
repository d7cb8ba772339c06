import HotstuffDag.Proof.Cluster

/-! # Who holds the payload of a certified block

An honest node votes for a block only after its mempool has let the block pass, so the votes of a certificate are
from nodes that have the payload and can send it on. -/

namespace HotstuffDag.Mempool
open Library Library.Exec

/-! ## Answers to payload requests -/

theorem Core.handleRequest_sends [PayloadBincode] {requestor : PublicKey} {address : SocketAddr} {s : State} {digests : List Digest}
    (whole : s.env.failures = []) (known : s.core.committee.mempoolAddress requestor = .ok address)
    (held : ∀ d ∈ digests, ∃ p, s.store.get? d = some (.payload p)) :
    ∃ more, handleRequest digests requestor s = .ok () { s with log := s.log ++ more } ∧
      ∀ d ∈ digests, ∀ p, s.store.get? d = some (.payload p) → .transmit (.payload p) [address] ∈ more := by
  induction digests generalizing s with
  | nil => exact ⟨[], by rw [List.append_nil]; rfl, fun d mem => absurd mem List.not_mem_nil⟩
  | cons d rest ih =>
      obtain ⟨p, stored⟩ := held d List.mem_cons_self
      let sent : State := { s with log := s.log ++ [.transmit (.payload p) [address]] }
      obtain ⟨more, answered, each⟩ := ih (s := sent) whole known fun d' mem => held d' (List.mem_cons_of_mem _ mem)
      refine ⟨.transmit (.payload p) [address] :: more, ?_, fun d' mem p' stored' => ?_⟩
      · have first : handleRequest (d :: rest) requestor s = handleRequest rest requestor sent := by
          conv_lhs => unfold handleRequest
          unfold read transmit
          simp only [bind_eq, get_run, whole, pure_run, stored, decodePayload, known, emit_run]
          rfl
        rw [first, answered]
        simp [sent]
      · rcases List.mem_cons.mp mem with rfl | later
        · rw [stored] at stored'
          obtain rfl := Value.payload.inj (Option.some.inj stored')
          exact List.mem_cons_self
        · exact List.mem_cons_of_mem _ (each d' later p' stored')

end HotstuffDag.Mempool

namespace HotstuffDag
open Library

/-- The mempool of a host sends the payloads that it is asked for, if its core runs and the store has them. -/
theorem Host.sends_payloads [Crypto] [Bincode] [Mempool.PayloadBincode] {host : Host} (alive : host.mempool.alive = true)
    {requestor : PublicKey} {address : SocketAddr} {env : Mempool.Env} {digests : List Digest}
    (known : host.mempool.core.committee.mempoolAddress requestor = .ok address) (whole : env.failures = [])
    (held : ∀ d ∈ digests, ∃ p, host.store.get? d = some (.payload p)) :
    ∀ d ∈ digests, ∀ p, host.store.get? d = some (.payload p) → .transmit (.payload p) [address] ∈
      (host.step (.mempool (.network (.payloadRequest digests requestor) env))).mempool.log := by
  obtain ⟨more, answered, each⟩ :=
    Mempool.Core.handleRequest_sends (s := host.mempool.state host.store env) whole known held
  intro d mem p stored
  have log : (host.step (.mempool (.network (.payloadRequest digests requestor) env))).mempool.log = host.mempool.log ++ more := by
    unfold Host.step Mempool.step
    dsimp only
    rw [Mempool.exec_alive alive]
    show (Library.Exec.final (Mempool.Core.handleRequest digests requestor) (host.mempool.state host.store env)).log = _
    unfold Library.Exec.final
    rw [answered]
    rfl
  rw [log]
  exact List.mem_append_right _ (each d mem p stored)

/-- What the node has logged the host has, but for signatures of payloads. -/
theorem Host.Follows.mem {past made : List Event} {host : Host} {n : Node} (h : host.Follows past made n)
    (own : ∀ e ∈ made, ∃ p, e = .signed (.payload p)) {e : Event} (mem : e ∈ n.log) (other : ∀ p, e ≠ .signed (.payload p)) :
    e ∈ host.node.log := by
  obtain ⟨rest, log, log'⟩ := h.log
  rw [log]
  rw [log'] at mem
  simp only [List.mem_append] at mem ⊢
  rcases mem with (old | announced) | new
  · exact .inl old
  · obtain ⟨p, same⟩ := own e announced
    exact absurd same (other p)
  · exact .inr new

/-- As long as the core of its mempool runs, the host sends the payload of the block to those who ask for it, but for digests of
blocks. -/
def Host.Supplies [Crypto] [Bincode] [Mempool.PayloadBincode] (host : Host) (b : Block) : Prop :=
  host.mempool.alive = true → ∀ digests, (∀ d ∈ digests, d ∈ b.payload ∧ ∀ b', host.HoldsBlock Map.empty b' → b'.digest ≠ d) →
    ∀ requestor address env, host.mempool.core.committee.mempoolAddress requestor = .ok address → env.failures = [] →
      ∀ d ∈ digests, ∃ p, p.digest = d ∧ .transmit (.payload p) [address] ∈
        (host.step (.mempool (.network (.payloadRequest digests requestor) env))).mempool.log

namespace Cluster
variable {cl : Cluster} {trace : HostTrace} {key : PublicKey}

/-! ## The inputs of one host -/

/-- What has happened to a host, in order. -/
def inputsOf (key : PublicKey) : HostTrace → List HostInput
  | [] => []
  | (name, input) :: before => if name = key then inputsOf key before ++ [input] else inputsOf key before

theorem hostAt_eq [Crypto] [Bincode] [Mempool.PayloadBincode] (trace : HostTrace) (key : PublicKey) :
    cl.hostAt trace key = (cl.start key).run (inputsOf key trace) := by
  induction trace with
  | nil => rfl
  | cons step before ih =>
      obtain ⟨name, input⟩ := step
      unfold hostAt inputsOf
      split
      · rw [ih, Host.run_snoc]
      · exact ih

theorem mem_inputsOf {input : HostInput} (mem : input ∈ inputsOf key trace) : ∃ step ∈ trace, step.2 = input := by
  induction trace with
  | nil => exact absurd mem List.not_mem_nil
  | cons step before ih =>
      obtain ⟨name, first⟩ := step
      unfold inputsOf at mem
      have found : input ∈ inputsOf key before ∨ input = first := by
        split at mem
        · exact (List.mem_append.mp mem).imp_right List.mem_singleton.mp
        · exact .inl mem
      rcases found with old | rfl
      · obtain ⟨step, earlier, same⟩ := ih old
        exact ⟨step, List.mem_cons_of_mem _ earlier, same⟩
      · exact ⟨_, List.mem_cons_self, rfl⟩

/-- The node gets its answers from its mempool, and its blocks back from the mempool or the synchronizer. -/
structure Wired [Crypto] [Bincode] [Mempool.PayloadBincode] (cl : Cluster) (trace : HostTrace) (key : PublicKey) : Prop where
  returned : (cl.start key).AllReturned (inputsOf key trace)
  answered : (cl.hostAt trace key).Answered

theorem filed_empty [Crypto] : Store.Filed Map.empty := by
  intro d v found
  rw [Map.get?_empty] at found
  cases found

theorem Wired.provided [Crypto] [Bincode] [Mempool.PayloadBincode] (wired : cl.Wired trace key) :
    Provided (cl.hostAt trace key).Present (cl.hostAt trace key).node.core (cl.hostAt trace key).node.log := by
  apply Host.provided_fresh key (cl.system.ordered key) (cl.system.parameters key) Map.empty (cl.system.env key) key
    (cl.mempoolCommittee key) (cl.mempoolParameters key) _ (hostAt_eq trace key) wired.returned wired.answered
  intro d value b stored
  rw [Map.get?_empty] at stored
  cases stored

theorem accounts [Crypto] [Bincode] [Mempool.PayloadBincode] (cl : Cluster) (trace : HostTrace) (key : PublicKey) :
    (cl.hostAt trace key).Accounts Map.empty := by
  rw [hostAt_eq]
  exact (Host.accounts_start key (cl.system.ordered key) (cl.system.parameters key) filed_empty (cl.system.env key) _).run _

/-! ## Holders -/

/-- A host that processes a block can send its payload. -/
theorem Wired.supplies [Crypto] [Bincode] [Mempool.PayloadBincode] (wired : cl.Wired trace key) {b : Block}
    (processed : Event.process b ∈ (cl.hostAt trace key).node.log) :
    (cl.hostAt trace key).Supplies b := by
  intro alive digests proper requestor address env known whole
  have stored (d : Digest) (mem : d ∈ digests) : ∃ p, p.digest = d ∧ (cl.hostAt trace key).store.get? d = some (.payload p) := by
    obtain ⟨listed, apart⟩ := proper d mem
    rcases (accounts cl trace key).kinds (wired.provided.processed b processed d listed) with payload | ⟨b', holds, same⟩
    · exact payload
    · exact absurd same (apart b' holds)
  have sent := Host.sends_payloads alive known whole fun d mem => (stored d mem).imp fun p h => h.2
  intro d mem
  obtain ⟨p, digest, found⟩ := stored d mem
  exact ⟨p, digest, sent d mem p found⟩

/-- A certified block can be had with its payload from honest nodes of more than `f`: those that have voted for it. -/
theorem certified_payloads_held [Crypto] [Bincode] [Mempool.PayloadBincode] (cl : Cluster) (tolerant : cl.system.Tolerant)
    (started : ∀ key, cl.system.Honest key → (cl.system.start key).alive = true) (trace : HostTrace) (valid : cl.Valid trace)
    (wired : ∀ key, cl.system.Honest key → cl.Wired trace key) (qc : QC) (verified : qc.verify cl.system.committee = .ok ())
    (authentic : cl.Authentic trace qc.claims) (unkeyed : cl.system.Unkeyed qc) :
    ∃ holders : Finset PublicKey, cl.system.committee.faults < Quorum.weight cl.system.committee.stake holders ∧
      ∀ key ∈ holders, cl.system.Honest key ∧ ∃ b, qc.IsFor b ∧ Event.process b ∈ (cl.hostAt trace key).node.log ∧
        (cl.hostAt trace key).Supplies b := by
  obtain ⟨made, t, simulates, presigns⟩ := simulated started valid
  have voted : cl.system.Voted t qc := ⟨verified, simulates.authentic (List.suffix_refl _) presigns authentic, unkeyed⟩
  obtain ⟨members, heavy⟩ := (Accepted.qc qc verified).quorum
  refine ⟨(qc.votes.map Prod.fst).toFinset \ cl.system.faulty, ?_, fun key mem => ?_⟩
  · have light : Quorum.weight cl.system.committee.stake cl.system.faulty ≤ cl.system.committee.faults := tolerant
    have split := Quorum.weight_le_sdiff_add (w := cl.system.committee.stake) (qc.votes.map Prod.fst).toFinset cl.system.faulty
    simp only [Committee.quorumThreshold, Committee.faults] at heavy light ⊢
    omega
  · obtain ⟨voter, good⟩ := Finset.mem_sdiff.mp mem
    have honest : cl.system.Honest key := ⟨List.mem_toFinset.mp (members voter), good⟩
    obtain ⟨c, b, granted, -, about⟩ := voted.cast honest voter
    have processed : Event.process b ∈ (cl.hostAt trace key).node.log := by
      apply (simulates.follows key).mem _ ((System.ballots t key).voted c b granted).1
      · exact fun p => by simp
      · exact fun e mem => (presigns.each key e mem).imp fun p h => h.1
    exact ⟨honest, b, about, processed, (wired key honest).supplies processed⟩

end Cluster
end HotstuffDag

/-! ## A certificate for a block with a payload -/

namespace HotstuffDag.Sample
open Library

theorem leaderVotes_wired : ∀ name, leaderless.Honest name → leaderCluster.Wired leaderVotes name := by
  intro name honest
  have own : ∀ name ∈ four.keys, ∀ b ∈ signedBlocks (leaderCluster.hostAt leaderVotes name).node.log, b.payload = [] := by
    decide +kernel
  have passed : ∀ name ∈ four.keys, ∀ b ∈ acceptedBlocks (leaderCluster.hostAt leaderVotes name).node.log,
      .status b .accept ∈ (leaderCluster.hostAt leaderVotes name).mempool.log := by
    decide +kernel
  constructor
  · apply Host.AllReturned.of_quiet
    intro input mem b env same
    subst same
    have quiet : ∀ step ∈ leaderVotes, ∀ b env, step.2 ≠ .consensus .core (.loopBack b) env := by
      simp [leaderVotes, leaderVote, others, verifies, receives]
    exact (Cluster.mem_inputsOf mem).elim fun step h => quiet step h.1 b env h.2
  · exact ⟨fun b signed => .inl (own name honest.1 b (mem_signedBlocks.mpr signed)),
      fun b accepted => passed name honest.1 b (mem_acceptedBlocks accepted), fun p _ => rfl⟩

theorem leaderVotes_held : (∀ name ∈ four.keys, (leaderCluster.hostAt leaderVotes name).mempool.alive = true) ∧
    ∃ holders : Finset PublicKey, four.faults < Quorum.weight four.stake holders ∧
      ∀ name ∈ holders, leaderless.Honest name ∧ ∃ b, (certify leaderBlock [2, 3, 4]).IsFor b ∧
        Event.process b ∈ (leaderCluster.hostAt leaderVotes name).node.log ∧ (leaderCluster.hostAt leaderVotes name).Supplies b := by
  have valid : leaderCluster.Valid leaderVotes := by decide +kernel
  have verified : (certify leaderBlock [2, 3, 4]).verify four = .ok () := by decide +kernel
  have authentic : leaderCluster.Authentic leaderVotes (certify leaderBlock [2, 3, 4]).claims := by decide +kernel
  refine ⟨by decide +kernel, ?_⟩
  apply Cluster.certified_payloads_held leaderCluster (by decide) leaderCluster_started leaderVotes valid leaderVotes_wired
    (certify leaderBlock [2, 3, 4]) verified authentic
  have unkeyed : ∀ name ∈ four.keys, (certify leaderBlock [2, 3, 4]).hash.bytes ≠ name.bytes := by decide +kernel
  exact fun name honest => unkeyed name honest.1

end HotstuffDag.Sample
