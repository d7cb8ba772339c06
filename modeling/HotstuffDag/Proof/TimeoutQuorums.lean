import HotstuffDag.Proof.AbaCases
import HotstuffDag.Proof.Collected
import HotstuffDag.Proof.ViewChange

/-! # What a timeout certificate rests on

A node saves the certificates that are sent to it and those that it assembles itself. Either way a quorum has
signed timeouts of the epoch, and the input of the first round is the largest height that they state. -/

namespace HotstuffDag
open Library

instance : Std.LawfulOrderSup SeqNumber where
  max_le_iff a b c := by
    show (if a ≤ b then b else a) ≤ c ↔ a ≤ c ∧ b ≤ c
    split
    · rename_i le
      exact ⟨fun h => ⟨UInt64.le_trans le h, h⟩, And.right⟩
    · rename_i gt
      have le : b ≤ a := UInt64.le_of_lt (UInt64.not_le.mp gt)
      exact ⟨fun h => ⟨h, UInt64.le_trans le h⟩, And.left⟩

section
variable [Crypto]

/-! ## Makers -/

/-- A timeout that was received or made here, and that verifies. -/
def HeardTimeout (got : ConsensusMessage → Prop) (committee : Committee) (l : List Event) (t : Timeout) : Prop :=
  (got (.timeout t) ∨ Event.signed (.timeout t) ∈ l) ∧ t.verify committee = .ok ()

/-- The makers of the chain have counted timeouts of their epochs. -/
def Chain.Tallies (got : ConsensusMessage → Prop) (committee : Committee) (l : List Event) (c : Chain) : Prop :=
  ∀ e, ∃ held, Counts committee Timeout.author Timeout.entry (c.aggregator.timeoutsAggregators.getD e Maker.new) held ∧
    ∀ t ∈ held, t.epoch = e ∧ HeardTimeout got committee l t

/-- A certificate that was received and verifies, or that lists timeouts that were heard. -/
inductive TC.Founded (got : ConsensusMessage → Prop) (committee : Committee) (l : List Event) (certificate : TC) : Prop
  | received (msg : got (.tc certificate)) (verified : certificate.verify committee = .ok ())
  | assembled {held : List Timeout} (verified : certificate.verify committee = .ok ())
      (votes : certificate.votes = held.map Timeout.entry)
      (each : ∀ t ∈ held, t.epoch = certificate.epoch ∧ HeardTimeout got committee l t)

variable {got : ConsensusMessage → Prop} {committee : Committee} {l l' : List Event} {c c' : Chain}

theorem HeardTimeout.mono {t : Timeout} (h : HeardTimeout got committee l t) (le : l <+: l') :
    HeardTimeout got committee l' t :=
  h.imp_left fun msg => msg.imp_right fun signed => le.subset signed

theorem TC.Founded.mono {certificate : TC} (h : certificate.Founded got committee l) (le : l <+: l') :
    certificate.Founded got committee l' := by
  cases h with
  | received msg verified => exact .received msg verified
  | assembled verified votes each =>
      exact .assembled verified votes fun t mem => (each t mem).imp_right fun heard => heard.mono le

theorem TC.Founded.verified {certificate : TC} (h : certificate.Founded got committee l) :
    certificate.verify committee = .ok () := by
  cases h <;> assumption

namespace Chain.Tallies

theorem new (name : PublicKey) : (Chain.new name).Tallies got committee l :=
  fun _ => ⟨[], Counts.new, fun _ mem => absurd mem List.not_mem_nil⟩

theorem mono (h : c.Tallies got committee l) (le : l <+: l') : c.Tallies got committee l' := by
  intro e
  obtain ⟨held, counts, each⟩ := h e
  exact ⟨held, counts, fun t mem => (each t mem).imp_right fun heard => heard.mono le⟩

theorem congr (h : c.Tallies got committee l)
    (same : c'.aggregator.timeoutsAggregators = c.aggregator.timeoutsAggregators) : c'.Tallies got committee l := by
  intro e
  rw [same]
  exact h e

theorem uncommitted (h : c.Tallies got committee l) (same : c'.uncommitted = c.uncommitted) : c'.Tallies got committee l :=
  h.congr (Chain.uncommitted_eq (fun c => c.aggregator.timeoutsAggregators) (fun _ => rfl) same)

theorem certify (h : c.Tallies got committee l) (epoch : SeqNumber) (qc : QC) : (c.certify epoch qc).Tallies got committee l := by
  have advanced : (c.advance epoch qc.height).Tallies got committee l := by
    unfold Chain.advance
    split
    · exact h
    · intro e
      show ∃ held, Counts committee _ _ ((c.aggregator.timeoutsAggregators.retain fun k => k ≥ epoch).getD e Maker.new) held ∧ _
      rw [Map.getD, Map.get?_retain]
      split
      · exact h e
      · exact ⟨[], Counts.new, fun _ mem => absurd mem List.not_mem_nil⟩
  exact advanced.congr rfl

theorem countTimeout (h : c.Tallies got committee l) {t : Timeout} (heard : HeardTimeout got committee l t) :
    (c.countTimeout committee t).Tallies got committee l ∧
      ∀ certificate, (c.aggregator.addTimeout t committee).1 = .ok (some certificate) → certificate.Founded got committee l := by
  obtain ⟨held, counts, each⟩ := h t.epoch
  obtain ⟨after, made⟩ := counts.collect t (.authorityReuseinTC t.author) fun votes => (⟨t.epoch, votes⟩ : TC)
  have each' : ∀ u ∈ tally Timeout.author held t, u.epoch = t.epoch ∧ HeardTimeout got committee l u := by
    intro u mem
    rcases mem_tally mem with old | rfl
    · exact each u old
    · exact ⟨rfl, heard⟩
  constructor
  · intro e
    show ∃ held, Counts committee _ _ ((c.aggregator.timeoutsAggregators.insert t.epoch _).getD e Maker.new) held ∧ _
    rw [Map.getD_insert]
    split
    · rename_i same
      subst same
      exact ⟨_, after, each'⟩
    · exact h e
  · intro certificate returned
    obtain ⟨rfl, heavy⟩ := made certificate returned
    refine .assembled ?_ rfl each'
    exact TC.verify_of_timeouts after.nodup heavy fun u mem => (each' u mem).imp_right And.right

end Chain.Tallies

/-! ## A node -/

structure Tallied (got : ConsensusMessage → Prop) (committee : Committee) (v : View) (k : Core) (l : List Event) : Prop where
  same : k.committee = committee
  chains : ∀ name c, v name = some c → c.Tallies got committee l
  saved : ∀ certificate, Event.savedTc certificate ∈ l → certificate.Founded got committee l

variable [Bincode]

theorem Tallied.chain {s s' : Conf} (h : Tallied got committee (view s.core s.chain) s.core s.log) (act : Act got s s') :
    s'.chain.Tallies got committee s'.log := by
  have before : s.chain.Tallies got committee s.log := h.chains _ _ (view_self _ _)
  apply Chain.Tallies.mono _ act.frame.log
  cases act with
  | @commit fuel env k c l b _ => exact before.uncommitted (Core.commit_frame fuel b ⟨k, c, l, env⟩).chain
  | certify => exact before.certify _ _
  | countTimeout msg _ _ verified =>
      have same := h.same
      subst same
      exact (before.countTimeout ⟨msg, verified⟩).1
  | _ => exact before.congr rfl

theorem Tallied.act {s s' : Conf} (h : Tallied got committee (view s.core s.chain) s.core s.log) (act : Act got s s') :
    Tallied got committee (view s'.core s'.chain) s'.core s'.log := by
  refine ⟨act.frame.committee.trans h.same, fun name c found => ?_, fun certificate saved => ?_⟩
  · obtain ⟨c₀, found₀, which⟩ := act.view_back found
    rcases which with ⟨rfl, -, rfl⟩ | ⟨-, same⟩
    · exact h.chain act
    · exact ((h.chains name c₀ found₀).uncommitted same).mono act.frame.log
  · apply TC.Founded.mono _ act.frame.log
    rcases act.reason saved with old | reason
    · exact h.saved certificate old
    · cases reason with
      | aba _ received =>
          obtain ⟨msg, verified⟩ := received certificate rfl
          exact .received msg (h.same ▸ verified)
      | commit about => exact about.elim
      | savedTc msg verified added =>
          have same := h.same
          subst same
          exact ((h.chains _ _ (view_self _ _)).countTimeout ⟨msg, verified⟩).2 certificate added

theorem talliedInvariant (ok : Input → Prop) (committee : Committee) : Invariant ok (Tallied (Received ok) committee) where
  act := fun _ act h => h.act act
  blind := fun _ _ h => ⟨h.same, h.chains, h.saved⟩
  makePayload := by
    intro v k l transactions h
    have le := List.prefix_append l [.signed (.payload (.new transactions k.name))]
    refine ⟨h.same, fun name c found => (h.chains name c found).mono le, fun certificate saved => ?_⟩
    exact (h.saved certificate (by simpa using saved)).mono le
  storePayload := fun _ _ h => ⟨h.same, h.chains, h.saved⟩

/-- The input of the first round is the largest height of a certificate that was saved for the epoch. -/
structure FirstInputs (k : Core) (l : List Event) : Prop where
  cached : ∀ e certificate, k.tcCache.get? e = some certificate → certificate.epoch = e ∧ Event.savedTc certificate ∈ l
  round : 1 ≤ k.abaRound.toNat
  inputs : ∀ e v, Event.abaInput e 1 v ∈ l →
    ∃ certificate, Event.savedTc certificate ∈ l ∧ certificate.epoch = e ∧ certificate.highQcRounds.max? = some v

/-- A certificate comes into the cache when it is saved. -/
theorem Act.cachedTc {s s' : Conf} (act : Act got s s') {e : SeqNumber} {certificate : TC}
    (found : s'.core.tcCache.get? e = some certificate) :
    s.core.tcCache.get? e = some certificate ∨ certificate.epoch = e ∧ Event.savedTc certificate ∈ s'.log := by
  have inserted {m : Map SeqNumber TC} {tc : TC} (found : (m.insert tc.epoch tc).get? e = some certificate) :
      m.get? e = some certificate ∨ certificate.epoch = e ∧ certificate = tc := by
    rw [Map.get?_insert] at found
    split at found
    · rename_i same
      obtain rfl := Option.some.inj found
      exact .inr ⟨same, rfl⟩
    · exact .inl found
  cases act with
  | aba act =>
      cases act with
      | keepTc =>
          refine (inserted found).imp_right fun saved => ⟨saved.1, ?_⟩
          rw [saved.2]
          exact List.mem_append_right _ List.mem_cons_self
      | _ => exact .inl found
  | @commit fuel env k c l b _ =>
      have same := (Core.commit_frame fuel b ⟨k, c, l, env⟩).core_eq Core.tcCache fun _ _ => rfl
      exact .inl (same ▸ found)
  | nextEpoch => exact .inl (Map.get?_of_retain found).2
  | @countTimeout k c l t =>
      dsimp only at found ⊢
      unfold Core.keepAssembledTc Core.keptTc at found
      unfold Core.savedTcs
      dsimp only at found
      split at found
      · rename_i tc _
        refine (inserted found).imp_right fun saved => ⟨saved.1, ?_⟩
        rw [saved.2]
        exact List.mem_append_right _ List.mem_cons_self
      · exact .inl found
  | _ => exact .inl found

theorem FirstInputs.act {s s' : Conf} (act : Act got s s') (h : FirstInputs s.core s.log) : FirstInputs s'.core s'.log := by
  have le := act.frame.log
  have old {e : SeqNumber} {v : UInt64} (taken : Event.abaInput e 1 v ∈ s.log) : ∃ certificate,
      Event.savedTc certificate ∈ s'.log ∧ certificate.epoch = e ∧ certificate.highQcRounds.max? = some v := by
    obtain ⟨certificate, saved, rest⟩ := h.inputs e v taken
    exact ⟨certificate, le.subset saved, rest⟩
  refine ⟨fun e certificate found => ?_, ?_, fun e v taken => ?_⟩
  · rcases act.cachedTc found with before | saved
    · exact (h.cached e certificate before).imp_right fun saved => le.subset saved
    · exact saved
  · cases act.abaCase with
    | act act => exact act.round_pos h.round
    | nextEpoch core =>
        rw [core]
        exact Nat.le_refl 1
    | other core =>
        rw [Core.agreement_eq Core.abaRound (fun _ => rfl) core]
        exact h.round
  · cases act.abaCase with
    | act act =>
        rcases act.logged taken trivial with before | reason
        · exact old before
        · generalize first : (1 : SeqNumber) = r at reason
          cases reason with
          | firstInput _ cached highest =>
              obtain ⟨epoch, saved⟩ := h.cached _ _ cached
              exact ⟨_, le.subset saved, epoch, highest⟩
          | nextInput _ _ small =>
              have number := congrArg UInt64.toNat first
              rw [toNat_succ small] at number
              have one : UInt64.toNat 1 = 1 := rfl
              have round := h.round
              omega
    | nextEpoch _ _ events => exact old (events _ trivial taken)
    | other _ events => exact old (events _ trivial taken)

theorem firstInputsInvariant (ok : Input → Prop) : Invariant ok fun _ => FirstInputs where
  act := fun _ act h => h.act act
  blind := fun _ _ h => ⟨h.cached, h.round, h.inputs⟩
  makePayload := by
    intro v k l transactions h
    refine ⟨fun e certificate found => ?_, h.round, fun e v taken => ?_⟩
    · exact (h.cached e certificate found).imp_right fun saved => List.mem_append_left _ saved
    · obtain ⟨certificate, saved, rest⟩ := h.inputs e v (by simpa using taken)
      exact ⟨certificate, List.mem_append_left _ saved, rest⟩
  storePayload := fun _ _ h => ⟨h.cached, h.round, h.inputs⟩

/-! ## Runs -/

namespace System
variable {sys : System} {trace : Trace} {key : PublicKey}

/-- A certificate that a node saves passes its check, and its signatures of honest authorities were made by them. -/
theorem saved_certificate (valid : sys.Valid trace) {certificate : TC}
    (saved : Event.savedTc certificate ∈ (sys.nodeAt trace key).log) :
    certificate.verify (sys.ordered key) = .ok () ∧ sys.Authentic trace certificate.claims := by
  have inv := (identityInvariant (fun input => (key, input) ∈ trace) key (sys.ordered key)).and
    (talliedInvariant (fun input => (key, input) ∈ trace) (sys.ordered key))
  have sound := sys.sound_of_inputs inv ⟨⟨rfl, rfl⟩, rfl, fun name c found => ?_, fun certificate saved => by simp at saved⟩
  · obtain ⟨_, ⟨named, -⟩, tallied⟩ := sound.2
    have heard : certificate.Founded (Got trace key) (sys.ordered key) (sys.nodeAt trace key).log := tallied.saved certificate saved
    refine ⟨heard.verified, ?_⟩
    cases heard with
    | received msg => exact msg.authentic valid
    | assembled _ votes each =>
        intro claim mem
        unfold TC.claims at mem
        rw [votes, List.map_map] at mem
        obtain ⟨t, counted, rfl⟩ := List.mem_map.mp mem
        obtain ⟨epoch, heard, -⟩ := each t counted
        have own : timeoutPreimage certificate.epoch t.highQc.height = t.preimage := by rw [Timeout.preimage, epoch]
        show sys.Honest t.author → Crypto.verify t.signature (Crypto.sha512 (timeoutPreimage certificate.epoch t.highQc.height))
          t.author = true → timeoutPreimage certificate.epoch t.highQc.height ∈ released (sys.nodeAt trace t.author).log
        rw [own]
        rcases heard with msg | signed
        · exact msg.authentic valid ⟨t.author, t.preimage, t.signature⟩ List.mem_cons_self
        · have author : t.author = key := (honest_signers trace key _ signed).resolve_right (by simp [Signed.kind])
          rw [author]
          exact fun _ _ => List.mem_filterMap.mpr ⟨_, signed, rfl⟩
  · change (Core.new key (sys.ordered key) (sys.parameters key) Map.empty).pubkeyToChain.get? name = some c at found
    rw [Core.new_chains] at found
    split at found
    · rw [← Option.some.inj found]
      exact Chain.Tallies.new name
    · contradiction

/-- The input of the first round is the largest height of a certificate that the node has saved. -/
theorem input_of_certificate {e : SeqNumber} {v : UInt64} (taken : Event.abaInput e 1 v ∈ (sys.nodeAt trace key).log) :
    ∃ certificate, Event.savedTc certificate ∈ (sys.nodeAt trace key).log ∧ certificate.epoch = e ∧
      certificate.highQcRounds.max? = some v := by
  have sound := sys.sound_of_inputs (firstInputsInvariant fun input => (key, input) ∈ trace)
    ⟨fun e certificate found => by simp [first, Core.new] at found, Nat.le_refl 1, fun e v taken => by simp at taken⟩
  obtain ⟨_, holds⟩ := sound.2
  exact holds.inputs e v taken

end System

end
end HotstuffDag
