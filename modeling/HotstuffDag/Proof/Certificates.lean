import HotstuffDag.Proof.Events
import HotstuffDag.Proof.System
import HotstuffDag.Proof.VoteOnce

/-! # The certificates of a chain

Certificates enter a chain with proposals, with timeouts and from votes. What holds of those that
come in holds of all that the chain keeps and of all that the node hands on. -/

namespace HotstuffDag
open Library

section
variable {got : ConsensusMessage → Prop} {Q : PublicKey → QC → Prop} {T : TC → Prop} {committee : Committee}

/-- What the certificates that come in satisfy: `Q` on the chain of an author, `T` for timeouts. -/
structure Sources [Crypto] (Q : PublicKey → QC → Prop) (T : TC → Prop) (committee : Committee) (got : ConsensusMessage → Prop)
    (log : List Event) : Prop where
  genesis : ∀ name, Q name QC.genesis
  proposal : ∀ b, got (.propose b) ∨ got (.syncReply b) → b.verify committee = .ok () → Q b.author b.qc
  timeout : ∀ t, got (.timeout t) → t.verify committee = .ok () → Q (committee.getLeader t.epoch) t.highQc
  assembled : ∀ chain qc, Event.assembled chain qc ∈ log → Q chain qc
  tc : ∀ certificate, got (.tc certificate) → certificate.verify committee = .ok () → T certificate

/-- The height of a certificate on the chain of the author. -/
def Justified (Q : PublicKey → QC → Prop) (name : PublicKey) (height : SeqNumber) : Prop :=
  ∃ qc, Q name qc ∧ qc.height = height

/-! ## One chain -/

structure Chain.Certs (Q : PublicKey → QC → Prop) (committee : Committee) (name : PublicKey) (c : Chain) : Prop where
  member : name ∈ committee.keys
  high : Q name c.highQc
  entries : ∀ h d, c.heightToDigest.get? h = some d → ∃ qc, Q name qc ∧ qc.height = h ∧ qc.hash = d
  timeouts : ∀ e maker, c.aggregator.timeoutsAggregators.get? e = some maker →
    ∀ x ∈ maker.votes, Justified Q (committee.getLeader e) x.2.2

theorem TCMaker.append_votes {maker : TCMaker} {t : Timeout} {c : Committee} {x : PublicKey × Signature × SeqNumber}
    (h : x ∈ (TCMaker.append maker t c).2.votes) : x ∈ maker.votes ∨ x = (t.author, t.signature, t.highQc.height) := by
  unfold append at h
  split at h
  · exact .inl h
  · have pushed : x ∈ maker.votes ++ [(t.author, t.signature, t.highQc.height)] := by
      dsimp only at h
      split at h <;> exact h
    exact (List.mem_append.mp pushed).imp_right List.mem_singleton.mp

theorem TCMaker.append_some {maker : TCMaker} {t : Timeout} {c : Committee} {certificate : TC}
    (h : (TCMaker.append maker t c).1 = .ok (some certificate)) :
    certificate.epoch = t.epoch ∧ certificate.votes = (TCMaker.append maker t c).2.votes := by
  unfold append at h ⊢
  split at h
  · contradiction
  · rename_i fresh
    rw [if_neg fresh]
    dsimp only at h ⊢
    split at h
    · rename_i heavy
      rw [if_pos heavy, ← Option.some.inj (Except.ok.inj h)]
      exact ⟨rfl, rfl⟩
    · simp at h

namespace Chain.Certs
variable {name : PublicKey} {c c' : Chain}

theorem new (member : name ∈ committee.keys) (genesis : Q name QC.genesis) : (Chain.new name).Certs Q committee name where
  member := member
  high := genesis
  entries := fun h d found => by simp [Chain.new] at found
  timeouts := fun e maker found => by simp [Chain.new, Aggregator.new] at found

theorem congr (h : c.Certs Q committee name) (highQc : c'.highQc = c.highQc)
    (heightToDigest : c'.heightToDigest = c.heightToDigest)
    (timeouts : c'.aggregator.timeoutsAggregators = c.aggregator.timeoutsAggregators) : c'.Certs Q committee name := by
  refine ⟨h.member, ?_, ?_, ?_⟩
  · rw [highQc]
    exact h.high
  · rw [heightToDigest]
    exact h.entries
  · rw [timeouts]
    exact h.timeouts

theorem uncommitted (h : c.Certs Q committee name) (same : c'.uncommitted = c.uncommitted) :
    c'.Certs Q committee name :=
  h.congr (Chain.uncommitted_eq Chain.highQc (fun _ => rfl) same)
    (Chain.uncommitted_eq Chain.heightToDigest (fun _ => rfl) same)
    (Chain.uncommitted_eq (fun c => c.aggregator.timeoutsAggregators) (fun _ => rfl) same)

theorem advance (h : c.Certs Q committee name) (epoch height : SeqNumber) :
    (c.advance epoch height).Certs Q committee name := by
  unfold Chain.advance
  split
  · exact h
  · exact ⟨h.member, h.high, h.entries, fun e maker found => h.timeouts e maker (Map.get?_of_retain found).2⟩

theorem update (h : c.Certs Q committee name) {qc : QC} (holds : Q name qc) : (c.update qc).Certs Q committee name := by
  refine ⟨h.member, ?_, fun height d found => ?_, h.timeouts⟩
  · unfold Chain.update
    dsimp only
    split
    · exact holds
    · exact h.high
  · simp only [Chain.update, Map.get?_insert] at found
    split at found
    · exact ⟨qc, holds, ‹_›, Option.some.inj found⟩
    · exact h.entries height d found

theorem certify (h : c.Certs Q committee name) {qc : QC} (holds : Q name qc) (epoch : SeqNumber) :
    (c.certify epoch qc).Certs Q committee name :=
  (h.advance epoch qc.height).update holds

theorem restart (h : c.Certs Q committee name) (genesis : Q name QC.genesis) (output : SeqNumber) :
    (c.restart output).Certs Q committee name where
  member := h.member
  high := genesis
  entries := fun height d found => h.entries height d (Map.get?_of_retain found).2
  timeouts := h.timeouts

/-- The entries of the maker that counts a timeout. -/
theorem counted (h : c.Certs Q committee name) {t : Timeout} (holds : Q (committee.getLeader t.epoch) t.highQc)
    {k : Committee} {x : PublicKey × Signature × SeqNumber}
    (mem : x ∈ (TCMaker.append (c.aggregator.timeoutsAggregators.getD t.epoch Maker.new) t k).2.votes) :
    Justified Q (committee.getLeader t.epoch) x.2.2 := by
  rcases TCMaker.append_votes mem with old | rfl
  · unfold Map.getD at old
    cases found : c.aggregator.timeoutsAggregators.get? t.epoch with
    | none =>
        rw [found] at old
        exact absurd old List.not_mem_nil
    | some maker =>
        rw [found] at old
        exact h.timeouts t.epoch maker found x old
  · exact ⟨t.highQc, holds, rfl⟩

theorem countTimeout (h : c.Certs Q committee name) {t : Timeout} (holds : Q (committee.getLeader t.epoch) t.highQc)
    (k : Committee) : (c.countTimeout k t).Certs Q committee name := by
  refine ⟨h.member, h.high, h.entries, fun e maker found x mem => ?_⟩
  simp only [Chain.countTimeout, Aggregator.addTimeout, Map.get?_insert] at found
  split at found
  · rename_i same
    rw [← same]
    rw [← Option.some.inj found] at mem
    exact h.counted holds mem
  · exact h.timeouts e maker found x mem

/-- A timeout certificate that the aggregator returns states heights of certificates only. -/
theorem assembled (h : c.Certs Q committee name) {t : Timeout} (holds : Q (committee.getLeader t.epoch) t.highQc)
    {k : Committee} {certificate : TC} (added : (c.aggregator.addTimeout t k).1 = .ok (some certificate)) :
    ∀ height ∈ certificate.highQcRounds, Justified Q (committee.getLeader certificate.epoch) height := by
  obtain ⟨epoch, votes⟩ := TCMaker.append_some added
  intro height mem
  obtain ⟨x, entry, rfl⟩ := List.mem_map.mp mem
  rw [epoch]
  rw [votes] at entry
  exact h.counted holds entry

end Chain.Certs

/-! ## A node -/

structure Certs (Q : PublicKey → QC → Prop) (T : TC → Prop) (committee : Committee) (v : View) (k : Core)
    (l : List Event) : Prop where
  same : k.committee = committee
  chains : ∀ name c, v name = some c → c.Certs Q committee name
  stored : ∀ name c, k.pubkeyToChain.get? name = some c → c.Certs Q committee name
  blocks : ∀ b, Event.signed (.block b) ∈ l → ∃ name, Q name b.qc
  timeouts : ∀ t, Event.signed (.timeout t) ∈ l → Q (committee.getLeader t.epoch) t.highQc
  certificates : ∀ certificate, Event.savedTc certificate ∈ l →
    T certificate ∨ ∀ height ∈ certificate.highQcRounds, Justified Q (committee.getLeader certificate.epoch) height

namespace Certs
variable {s s' : Conf} {log : List Event}

theorem counted [Crypto] (sources : Sources Q T committee got log) (h : Certs Q T committee (view s.core s.chain) s.core s.log)
    {t : Timeout} (msg : got (.timeout t) ∨ Event.signed (.timeout t) ∈ s.log)
    (verified : t.verify s.core.committee = .ok ()) : Q (committee.getLeader t.epoch) t.highQc := by
  rcases msg with received | own
  · exact sources.timeout t received (h.same ▸ verified)
  · exact h.timeouts t own

/-- The certificates that enter the chain of an act. -/
theorem entered [Crypto] (sources : Sources Q T committee got log) (h : Certs Q T committee (view s.core s.chain) s.core s.log)
    (le : s.log <+: log) {qc : QC} (why : Certified got s.core s.chain s.log qc) : Q s.chain.name qc := by
  cases why with
  | proposal msg author verified =>
      rw [← author]
      exact sources.proposal _ msg (h.same ▸ verified)
  | timeout msg leader _ verified =>
      rw [← leader, h.same]
      exact h.counted sources msg verified
  | assembled event => exact sources.assembled _ _ (le.subset event)

theorem chain [Crypto] [Bincode] (sources : Sources Q T committee got log) (act : Act got s s') (le : s'.log <+: log)
    (h : Certs Q T committee (view s.core s.chain) s.core s.log) : s'.chain.Certs Q committee s.chain.name := by
  have before : s.chain.Certs Q committee s.chain.name := h.chains _ _ (view_self _ _)
  cases act with
  | @commit fuel env k c l b _ => exact before.uncommitted (Core.commit_frame fuel b ⟨k, c, l, env⟩).chain
  | certify why => exact before.certify (h.entered sources le why) _
  | countTimeout msg _ _ verified => exact before.countTimeout (h.counted sources msg verified) _
  | nextEpoch => exact before.restart (sources.genesis _) _
  | _ => exact before.congr rfl rfl rfl

theorem act [Crypto] [Bincode] (sources : Sources Q T committee got log) (act : Act got s s') (le : s'.log <+: log)
    (h : Certs Q T committee (view s.core s.chain) s.core s.log) :
    Certs Q T committee (view s'.core s'.chain) s'.core s'.log := by
  have before : s.chain.Certs Q committee s.chain.name := h.chains _ _ (view_self _ _)
  refine ⟨act.frame.committee.trans h.same, fun name c found => ?_, fun name c found => ?_, fun b signed => ?_,
    fun t signed => ?_, fun certificate saved => ?_⟩
  · obtain ⟨c₀, found₀, which⟩ := act.view_back found
    rcases which with ⟨rfl, -, rfl⟩ | ⟨-, same⟩
    · exact h.chain sources act le
    · exact (h.chains name c₀ found₀).uncommitted same
  · have same := act.stored name
    rw [found, Option.map_some] at same
    obtain ⟨c₀, found₀, same₀⟩ := Option.map_eq_some_iff.mp same.symm
    exact (h.stored name c₀ found₀).uncommitted same₀.symm
  · rcases act.reason signed with old | reason
    · exact h.blocks b old
    · cases reason with
      | aba about => exact about.elim
      | commit about => exact about.elim
      | proposed high =>
          refine ⟨s.chain.name, ?_⟩
          rcases high with rfl | rfl
          · exact sources.genesis _
          · exact before.high
  · rcases act.reason signed with old | reason
    · exact h.timeouts t old
    · cases reason with
      | aba about => exact about.elim
      | commit about => exact about.elim
      | timeout leader =>
          have named : s.chain.name = committee.getLeader s.core.epoch := by rw [leader, Core.leader, h.same]
          change Q (committee.getLeader s.core.epoch) s.chain.highQc
          rw [← named]
          exact before.high
  · rcases act.reason saved with old | reason
    · exact h.certificates certificate old
    · cases reason with
      | aba _ received =>
          obtain ⟨msg, verified⟩ := received certificate rfl
          exact .inl (sources.tc certificate msg (h.same ▸ verified))
      | commit about => exact about.elim
      | savedTc msg verified added => exact .inr (before.assembled (h.counted sources msg verified) added)

end Certs

theorem certsInvariant [Crypto] [Bincode] {ok : Input → Prop} {log : List Event} (sources : Sources Q T committee (Received ok) log) :
    Invariant ok fun v k l => l <+: log → Certs Q T committee v k l where
  act := fun _ act h le => Certs.act sources act le (h (act.frame.log.trans le))
  blind := by
    rintro v k l m rfl h le
    have certs := h le
    exact ⟨certs.same, certs.chains, certs.chains, certs.blocks, certs.timeouts, certs.certificates⟩
  makePayload := by
    intro v k l transactions h le
    have certs := h ((List.prefix_append _ _).trans le)
    refine ⟨certs.same, certs.chains, certs.stored, fun b signed => certs.blocks b ?_,
      fun t signed => certs.timeouts t ?_, fun certificate saved => certs.certificates certificate ?_⟩
    · simpa using signed
    · simpa using signed
    · simpa using saved
  storePayload := fun _ _ h le =>
    have certs := h le
    ⟨certs.same, certs.chains, certs.stored, certs.blocks, certs.timeouts, certs.certificates⟩

theorem Certs.init (genesis : ∀ name, Q name QC.genesis) (name : PublicKey) (parameters : Parameters) (store : Store) :
    Certs Q T committee (Core.new name committee parameters store).pubkeyToChain.get?
      (Core.new name committee parameters store) [] := by
  have chains (key : PublicKey) (c : Chain)
      (found : (Core.new name committee parameters store).pubkeyToChain.get? key = some c) : c.Certs Q committee key := by
    rw [Core.new_chains] at found
    split at found
    · rename_i member
      rw [← Option.some.inj found]
      exact Chain.Certs.new member (genesis key)
    · contradiction
  exact ⟨rfl, chains, chains, fun b h => by simp at h, fun t h => by simp at h, fun certificate h => by simp at h⟩

end
end HotstuffDag
