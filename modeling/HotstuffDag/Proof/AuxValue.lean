import HotstuffDag.Proof.ValQuorums

/-! # The value of the AUX message

A node broadcasts it a turn after it has accepted its first value, with the certificate that it then holds. -/

namespace HotstuffDag
open Library Library.Exec

/-! ## The first value -/

/-- The value that the event accepts in the round. -/
def Event.accepts (epoch round : SeqNumber) : Event → Option UInt64
  | .binValue e r val => if e = epoch ∧ r = round then some val else none
  | _ => none

/-- The first value that is put into `bin_values` in the round. -/
def firstAccepted (epoch round : SeqNumber) (l : List Event) : Option UInt64 := l.findSome? (Event.accepts epoch round)

section
variable {epoch round : SeqNumber} {val : UInt64} {l l' : List Event} {e : Event}

theorem accepts_eq_some (h : e.accepts epoch round = some val) : e = .binValue epoch round val := by
  unfold Event.accepts at h
  split at h
  · split at h
    · rename_i same
      obtain ⟨rfl, rfl⟩ := same
      rw [Option.some.inj h]
    · contradiction
  · contradiction

theorem mem_of_firstAccepted (h : firstAccepted epoch round l = some val) : .binValue epoch round val ∈ l := by
  obtain ⟨e, mem, accepts⟩ := List.exists_of_findSome?_eq_some h
  exact accepts_eq_some accepts ▸ mem

theorem firstAccepted_append (l l' : List Event) :
    firstAccepted epoch round (l ++ l') = (firstAccepted epoch round l).or (firstAccepted epoch round l') :=
  List.findSome?_append

theorem firstAccepted_mono (h : firstAccepted epoch round l = some val) (le : l <+: l') : firstAccepted epoch round l' = some val := by
  obtain ⟨more, rfl⟩ := le
  rw [firstAccepted_append, h]
  rfl

/-- An event that accepts nothing leaves the first value as it is. -/
theorem firstAccepted_other (le : l <+: l') (events : ∀ e r v, Event.binValue e r v ∈ l' → .binValue e r v ∈ l)
    (h : firstAccepted epoch round l' = some val) : firstAccepted epoch round l = some val := by
  cases before : firstAccepted epoch round l with
  | some first => rw [← h, firstAccepted_mono before le]
  | none =>
      have mem := events _ _ _ (mem_of_firstAccepted h)
      have never := List.findSome?_eq_none_iff.mp before _ mem
      simp [Event.accepts] at never

theorem firstAccepted_snoc (fresh : firstAccepted epoch round l = none) :
    firstAccepted epoch round (l ++ [.binValue epoch round val]) = some val := by
  rw [firstAccepted_append, fresh]
  simp [firstAccepted, Event.accepts]

end

/-- The AUX message of the round is out. -/
def AuxSent (l : List Event) (epoch round : SeqNumber) : Prop :=
  ∃ v, Sent (.abaVal v) l ∧ v.phase = AUX_PHASE ∧ v.epoch = epoch ∧ v.round = round

/-- When a quorum certificate comes for another value than the first that was accepted in its round, the AUX message of the
round is out. -/
def Timely (l : List Event) : Prop :=
  ∀ before p first, before ++ [Event.assembledAba p] <+: l → p.IsStrong → firstAccepted p.epoch p.round before = some first →
    first ≠ p.val → AuxSent before p.epoch p.round

/-- The certificate in the cache is for the first value, until the AUX message is out. -/
structure Firsts (final : List Event) (k : Core) (l : List Event) : Prop where
  reached : ∀ e r v, Event.binValue e r v ∈ l → point e r ≤ k.now
  weak : Keyed k.abaValPhaseCache1 VAL_PHASE
  strong : Keyed k.abaValPhaseCache2 VAL_PHASE
  out : ∀ v, Sent (.abaVal v) l → v.phase = AUX_PHASE →
    point v.epoch v.round ≤ k.now ∧ (point v.epoch v.round = k.now → k.auxValueBroadcasted = true)
  bins : k.binValues ≠ [] → ∃ first, firstAccepted k.epoch k.abaRound l = some first
  certs : l <+: final → ∀ q first, k.abaValPhaseCache2.get? (k.epoch, k.abaRound) = some q →
    firstAccepted k.epoch k.abaRound l = some first → k.auxValueBroadcasted = true ∨ q.val = first
  sent : l <+: final → ∀ v, Sent (.abaVal v) l → v.phase = AUX_PHASE → firstAccepted v.epoch v.round l = some v.val

/-- A value is accepted, or an AUX message broadcast. -/
def Event.ofAux : Event → Prop
  | .binValue _ _ _ => True
  | .transmit _ (.abaVal v) _ => v.phase = AUX_PHASE
  | _ => False

theorem Event.aboutAba_of_aux (e : Event) (h : e.ofAux) : e.aboutAba := by
  unfold Event.ofAux at h
  split at h <;> trivial

namespace Firsts
variable {got : ConsensusMessage → Prop} {final l l' : List Event} {k k' : Core}

theorem sent_old (events : ∀ e, e.ofAux → e ∈ l' → e ∈ l) {v : ABAVal} (h : Sent (.abaVal v) l') (phase : v.phase = AUX_PHASE) :
    Sent (.abaVal v) l := by
  obtain ⟨tag, addresses, mem⟩ := h
  exact ⟨tag, addresses, events _ phase mem⟩

/-- What accepts nothing and broadcasts no AUX message keeps it in the round. -/
theorem keep (h : Firsts final k l) (le : l <+: l') (events : ∀ e, e.ofAux → e ∈ l' → e ∈ l) (epoch : k'.epoch = k.epoch)
    (round : k'.abaRound = k.abaRound) (weak : Keyed k'.abaValPhaseCache1 VAL_PHASE) (strong : Keyed k'.abaValPhaseCache2 VAL_PHASE)
    (aux : k'.auxValueBroadcasted = k.auxValueBroadcasted) (bins : k'.binValues = k.binValues)
    (certs : l' <+: final → ∀ q first, k'.abaValPhaseCache2.get? (k.epoch, k.abaRound) = some q →
      firstAccepted k.epoch k.abaRound l = some first → k.auxValueBroadcasted = true ∨ q.val = first) : Firsts final k' l' := by
  have now : k'.now = k.now := by
    unfold Core.now
    rw [epoch, round]
  constructor
  · intro e r v mem
    rw [now]
    exact h.reached e r v (events _ trivial mem)
  · exact weak
  · exact strong
  · intro v sent phase
    rw [now, aux]
    exact h.out v (sent_old events sent phase) phase
  · intro some
    rw [bins] at some
    obtain ⟨v, known⟩ := h.bins some
    rw [epoch, round]
    exact ⟨v, firstAccepted_mono known le⟩
  · intro grown q v cached known
    rw [epoch, round] at cached known
    rw [aux]
    exact certs grown q v cached (firstAccepted_other le (fun _ _ _ => events _ trivial) known)
  · intro grown v sent phase
    apply firstAccepted_mono _ le
    exact h.sent (le.trans grown) v (sent_old events sent phase) phase

/-- The same where the caches stay. -/
theorem still (h : Firsts final k l) (le : l <+: l') (events : ∀ e, e.ofAux → e ∈ l' → e ∈ l) (epoch : k'.epoch = k.epoch)
    (round : k'.abaRound = k.abaRound) (weak : k'.abaValPhaseCache1 = k.abaValPhaseCache1)
    (strong : k'.abaValPhaseCache2 = k.abaValPhaseCache2) (aux : k'.auxValueBroadcasted = k.auxValueBroadcasted)
    (bins : k'.binValues = k.binValues) : Firsts final k' l' := by
  apply h.keep le events epoch round (weak ▸ h.weak) (strong ▸ h.strong) aux bins
  intro grown q first cached
  rw [strong] at cached
  exact h.certs (le.trans grown) q first cached

/-- A later round starts anew. -/
theorem later (h : Firsts final k l) (le : l <+: l') (events : ∀ e, e.ofAux → e ∈ l' → e ∈ l) (lt : k.now < k'.now)
    (bins : k'.binValues = []) (weak : Keyed k'.abaValPhaseCache1 VAL_PHASE) (strong : Keyed k'.abaValPhaseCache2 VAL_PHASE) :
    Firsts final k' l' := by
  constructor
  · intro e r v mem
    exact (h.reached e r v (events _ trivial mem)).trans lt.le
  · exact weak
  · exact strong
  · intro v sent phase
    obtain ⟨past, -⟩ := h.out v (sent_old events sent phase) phase
    have before := lt_of_le_of_lt past lt
    exact ⟨before.le, fun same => absurd same before.ne⟩
  · exact fun some => absurd bins some
  · intro _ q v _ known
    have accepted := events (.binValue _ _ v) trivial (mem_of_firstAccepted known)
    exact absurd (h.reached _ _ _ accepted) (not_le_of_gt lt)
  · intro grown v sent phase
    apply firstAccepted_mono _ le
    exact h.sent (le.trans grown) v (sent_old events sent phase) phase

theorem other_abaEvents {v : ABAVal} (e : Event) (about : e.ofAux) (mem : e ∈ l ++ k.abaEvents v) : e ∈ l := by
  refine (List.mem_append.mp mem).resolve_right fun new => ?_
  obtain ⟨p, rfl, -⟩ := Core.mem_abaEvents new
  exact about

/-- A certificate for another value comes when the AUX message is out. -/
theorem hearVal (h : Firsts final k l) (timely : Timely final) {v : ABAVal} (phase : v.phase = VAL_PHASE) :
    Firsts final (k.hearVal v) (l ++ k.abaEvents v) := by
  have made (proof : ABAProof) (completed : (k.aggregator.addAbaVal v k.committee).1 = .ok (some proof)) : proof.phase = VAL_PHASE :=
    ((Paced.append_spec _ v k.committee).2 proof completed).2.2.trans phase
  have weak : Keyed (k.hearVal v).abaValPhaseCache1 VAL_PHASE := Paced.Keyed.kept h.weak _ made
  have strong : Keyed (k.hearVal v).abaValPhaseCache2 VAL_PHASE := Paced.Keyed.kept h.strong _ made
  refine (keep h (List.prefix_append _ _) other_abaEvents rfl rfl weak strong rfl rfl ?_ : Firsts final (k.hearVal v) _)
  intro le q first cached known
  have before := (List.prefix_append _ _).trans le
  change (Core.keptProof (fun proof => !proof.tag) k.abaValPhaseCache2 (k.aggregator.addAbaVal v k.committee).1).get? _ = _ at cached
  rcases Remembered.kept_or_same k.abaValPhaseCache2 (k.aggregator.addAbaVal v k.committee).1 with ⟨p, completed, tag, kept⟩ | ⟨kept, -⟩
  · rw [kept, Map.get?_insert] at cached
    split at cached
    · rename_i here
      obtain ⟨epoch, round⟩ := Prod.mk.inj here
      obtain rfl := Option.some.inj cached
      by_cases val : p.val = first
      · exact .inr val
      · left
        have events : k.abaEvents v = [.assembledAba p] := by
          unfold Core.abaEvents
          rw [completed]
        rw [events] at le
        rw [← epoch, ← round] at known
        obtain ⟨u, sent, aux, epoch', round'⟩ := timely l p first le ⟨tag, made p completed⟩ known (Ne.symm val)
        apply (h.out u sent aux).2
        rw [epoch', round', epoch, round]
        rfl
    · exact h.certs before q first cached known
  · rw [kept] at cached
    exact h.certs before q first cached known

/-- The AUX message has the value of the certificate. -/
theorem castAux [Crypto] (h : Firsts final k l) {tag : UInt8} {addresses : List SocketAddr} {proof : ABAProof}
    (fresh : k.auxValueBroadcasted = false) (bin : k.binValues ≠ [])
    (cached : k.abaValPhaseCache2.get? (k.epoch, k.abaRound) = some proof) :
    Firsts final { k with auxValueBroadcasted := true }
      (l ++ [.transmit tag (.abaVal (.new k.name proof.epoch proof.round proof.val AUX_PHASE)) addresses]) := by
  obtain ⟨epoch, round, -⟩ := h.strong _ _ _ cached
  have grown := List.prefix_append l [Event.transmit tag (.abaVal (.new k.name proof.epoch proof.round proof.val AUX_PHASE)) addresses]
  have old {e r : SeqNumber} {v : UInt64}
      (mem : Event.binValue e r v ∈ l ++ [.transmit tag (.abaVal (.new k.name proof.epoch proof.round proof.val AUX_PHASE)) addresses]) :
      Event.binValue e r v ∈ l := by
    refine (List.mem_append.mp mem).resolve_right fun new => ?_
    cases List.mem_singleton.mp new
  obtain ⟨first, known⟩ := h.bins bin
  constructor
  · exact fun e r v mem => h.reached e r v (old mem)
  · exact h.weak
  · exact h.strong
  · rintro v ⟨tag', addresses', mem⟩ phase
    refine ⟨?_, fun _ => rfl⟩
    rcases List.mem_append.mp mem with before | new
    · exact (h.out v ⟨tag', addresses', before⟩ phase).1
    · obtain ⟨-, same, -⟩ := Event.transmit.inj (List.mem_singleton.mp new)
      obtain rfl := ConsensusMessage.abaVal.inj same
      show point proof.epoch proof.round ≤ _
      rw [epoch, round]
      exact le_refl k.now
  · exact fun _ => ⟨first, firstAccepted_mono known grown⟩
  · exact fun _ _ _ _ _ => .inl rfl
  · rintro le v ⟨tag', addresses', mem⟩ phase
    apply firstAccepted_mono _ grown
    rcases List.mem_append.mp mem with before | new
    · exact h.sent (grown.trans le) v ⟨tag', addresses', before⟩ phase
    · obtain ⟨-, same, -⟩ := Event.transmit.inj (List.mem_singleton.mp new)
      obtain rfl := ConsensusMessage.abaVal.inj same
      show firstAccepted proof.epoch proof.round l = some proof.val
      rw [epoch, round, known]
      rcases h.certs (grown.trans le) proof first cached known with out | val
      · rw [fresh] at out
        contradiction
      · rw [val]

/-- The first value is that of the certificate. -/
theorem accept (h : Firsts final k l) {proof : ABAProof} (cached : k.abaValPhaseCache2.get? (k.epoch, k.abaRound) = some proof) :
    Firsts final { k with binValues := k.binValues.insert proof.val } (l ++ [.binValue k.epoch k.abaRound proof.val]) := by
  have grown := List.prefix_append l [Event.binValue k.epoch k.abaRound proof.val]
  have either : (∃ first, firstAccepted k.epoch k.abaRound l = some first) ∨
      firstAccepted k.epoch k.abaRound (l ++ [.binValue k.epoch k.abaRound proof.val]) = some proof.val := by
    cases known : firstAccepted k.epoch k.abaRound l with
    | some first => exact .inl ⟨first, rfl⟩
    | none => exact .inr (firstAccepted_snoc known)
  have old {v : ABAVal} (sent : Sent (.abaVal v) (l ++ [.binValue k.epoch k.abaRound proof.val])) : Sent (.abaVal v) l := by
    obtain ⟨tag, addresses, mem⟩ := sent
    refine ⟨tag, addresses, (List.mem_append.mp mem).resolve_right fun new => ?_⟩
    cases List.mem_singleton.mp new
  constructor
  · intro e r v mem
    rcases List.mem_append.mp mem with old | new
    · exact h.reached e r v old
    · obtain ⟨rfl, rfl, -⟩ := Event.binValue.inj (List.mem_singleton.mp new)
      exact le_refl k.now
  · exact h.weak
  · exact h.strong
  · intro v sent phase
    exact h.out v (old sent) phase
  · intro _
    rcases either with ⟨first, known⟩ | new
    · exact ⟨first, firstAccepted_mono known grown⟩
    · exact ⟨proof.val, new⟩
  · intro le q first held known
    rcases either with ⟨first', before⟩ | new
    · have same : first' = first := Option.some.inj ((firstAccepted_mono before grown).symm.trans known)
      exact h.certs (grown.trans le) q first held (same ▸ before)
    · right
      rw [Option.some.inj (held.symm.trans cached)]
      exact Option.some.inj (new.symm.trans known)
  · intro le v sent phase
    apply firstAccepted_mono _ grown
    exact h.sent (grown.trans le) v (old sent) phase

theorem keyed_retain {cache : Map (SeqNumber × SeqNumber) ABAProof} {phase : UInt8} (h : Keyed cache phase)
    (p : SeqNumber × SeqNumber → Bool) : Keyed (cache.retain p) phase := by
  intro e r proof found
  obtain ⟨-, before⟩ := Map.get?_of_retain found
  exact h e r proof before

theorem nextEpoch (h : Firsts final k l) (small : k.epoch.toNat + 1 < 2 ^ 64) (le : l <+: l')
    (events : ∀ e, e.ofAux → e ∈ l' → e ∈ l) : Firsts final k.nextEpoch l' := by
  apply h.later le events _ rfl
  · exact keyed_retain h.weak _
  · exact keyed_retain h.strong _
  · exact point_lt_epoch small k.abaRound 1

theorem act [Crypto] (h : Firsts final k l) (timely : Timely final) (act : AbaAct got k l k' l') : Firsts final k' l' := by
  have grown := act.frame.log
  have single {e : Event} (other : ¬ e.ofAux) (e' : Event) (about : e'.ofAux) (mem : e' ∈ l ++ [e]) : e' ∈ l := by
    refine (List.mem_append.mp mem).resolve_right fun new => ?_
    rw [List.mem_singleton.mp new] at about
    exact other about
  cases act with
  | hearVal _ _ phase => exact h.hearVal timely phase
  | hearAux => exact h.still grown other_abaEvents rfl rfl rfl rfl rfl rfl
  | castAux fresh bin cached => exact h.castAux fresh bin cached
  | accept cached => exact h.accept cached
  | nextRound _ _ _ _ small =>
      refine h.later grown (fun e about mem => ?_) (@point_lt_round k.epoch _ small) rfl (keyed_retain h.weak _)
        (keyed_retain h.strong _)
      rw [List.append_assoc] at mem
      refine (List.mem_append.mp mem).resolve_right fun new => ?_
      rcases List.mem_cons.mp new with rfl | signed
      · exact about
      · rw [List.mem_singleton.mp signed] at about
        exact about
  | quiet quiet =>
      refine h.still grown (single fun about => ?_) rfl rfl rfl rfl rfl rfl
      unfold Event.quiet at quiet
      unfold Event.ofAux at about
      split at quiet <;> simp_all
  | hearShare =>
      refine h.still grown (fun e about mem => (List.mem_append.mp mem).resolve_right fun new => ?_) rfl rfl rfl rfl rfl rfl
      unfold Core.coinEvents at new
      split at new
      · rw [List.mem_singleton.mp new] at about
        exact about
      · exact absurd new List.not_mem_nil
  | castInput taken held current => exact h.still grown (single (by decide : ¬ VAL_PHASE = AUX_PHASE)) rfl rfl rfl rfl rfl rfl
  | amplify fresh cached other =>
      refine h.still grown (single fun aux => ?_) rfl rfl rfl rfl rfl rfl
      exact absurd ((h.weak _ _ _ cached).2.2.symm.trans aux) (by decide)
  | keepTc | takeInput | callCoin | callProof | outputCoin | outputProof | castProof | enterCoin =>
      exact h.still grown (single id) rfl rfl rfl rfl rfl rfl
  | _ => exact h.still grown (fun _ _ mem => mem) rfl rfl rfl rfl rfl rfl

end Firsts

theorem firstsInvariant [Crypto] [Bincode] (ok : Input → Prop) (final : List Event) (timely : Timely final) :
    Invariant ok fun _ k l => Firsts final k l where
  act := by
    intro s s' _ act h
    have grown := act.frame.log
    cases act.abaCase with
    | act act => exact h.act timely act
    | nextEpoch core small events =>
        rw [core]
        exact h.nextEpoch small grown fun e about => events e (e.aboutAba_of_aux about)
    | other same events =>
        apply h.still grown fun e about => events e (e.aboutAba_of_aux about)
        · exact Core.agreement_eq Core.epoch (fun _ => rfl) same
        · exact Core.agreement_eq Core.abaRound (fun _ => rfl) same
        · exact Core.agreement_eq Core.abaValPhaseCache1 (fun _ => rfl) same
        · exact Core.agreement_eq Core.abaValPhaseCache2 (fun _ => rfl) same
        · exact Core.agreement_eq Core.auxValueBroadcasted (fun _ => rfl) same
        · exact Core.agreement_eq Core.binValues (fun _ => rfl) same
  blind := fun _ _ h => h.still (List.prefix_refl _) (fun _ _ mem => mem) rfl rfl rfl rfl rfl rfl
  makePayload := by
    intro v k l transactions h
    refine h.still (List.prefix_append _ _) (fun e about mem => (List.mem_append.mp mem).resolve_right fun new => ?_) rfl rfl rfl rfl rfl rfl
    rw [List.mem_singleton.mp new] at about
    exact about
  storePayload := fun _ _ h => h.still (List.prefix_refl _) (fun _ _ mem => mem) rfl rfl rfl rfl rfl rfl

/-- An AUX message has the first value that was accepted in its round. -/
theorem aux_first_accepted [Crypto] [Bincode] (name : PublicKey) (committee : Committee) (parameters : Parameters)
    (store : Store) (env : Env)
    (inputs : List Input) (timely : Timely ((Node.start (Core.new name committee parameters store) env).run inputs).log) (v : ABAVal)
    (sent : Sent (.abaVal v) ((Node.start (Core.new name committee parameters store) env).run inputs).log) (aux : v.phase = AUX_PHASE) :
    firstAccepted v.epoch v.round ((Node.start (Core.new name committee parameters store) env).run inputs).log = some v.val := by
  have inv := firstsInvariant (fun _ => True) _ timely
  have start : (Node.start (Core.new name committee parameters store) env).Sound fun _ k l =>
      Firsts ((Node.start (Core.new name committee parameters store) env).run inputs).log k l := by
    apply inv.init
    have none {e : Event} : e ∉ ([] : List Event) := List.not_mem_nil
    have unsent {v : ABAVal} : ¬ Sent (.abaVal v) [] := fun ⟨_, _, mem⟩ => none mem
    have empty : Keyed Map.empty VAL_PHASE := fun _ _ _ found => by contradiction
    exact ⟨fun _ _ _ mem => absurd mem none, empty, empty, fun v sent => absurd sent unsent, fun some => absurd rfl some,
      fun _ _ _ cached => by contradiction, fun _ v sent => absurd sent unsent⟩
  obtain ⟨-, firsts⟩ := (inv.run (fun _ _ => trivial) start).2
  exact firsts.sent (List.prefix_refl _) v sent aux

namespace Sample

def auxMessages (l : List Event) : List ABAVal :=
  l.filterMap fun
    | .transmit _ (.abaVal v) _ => if v.phase = AUX_PHASE then some v else none
    | _ => none

theorem mem_auxMessages {l : List Event} {v : ABAVal} (h : v ∈ auxMessages l) : Sent (.abaVal v) l ∧ v.phase = AUX_PHASE := by
  obtain ⟨e, mem, found⟩ := List.mem_filterMap.mp h
  split at found
  · split at found
    · rename_i phase
      obtain rfl := Option.some.inj found
      exact ⟨⟨_, _, mem⟩, phase⟩
    · contradiction
  · contradiction

theorem timely_of {l : List Event} (each : ∀ i < l.length, ∀ p ∈ certificates l[i]?.toList, p.IsStrong →
    firstAccepted p.epoch p.round (l.take i) = none ∨ firstAccepted p.epoch p.round (l.take i) = some p.val ∨
      ∃ v ∈ auxMessages (l.take i), v.epoch = p.epoch ∧ v.round = p.round) : Timely l := by
  rintro before p first ⟨rest, rfl⟩ strong known other
  have here := each before.length (by simp) p (mem_certificates.mpr (by simp)) strong
  rw [List.append_assoc, List.take_left, known] at here
  rcases here with none | same | ⟨v, mem, epoch, round⟩
  · contradiction
  · exact absurd (Option.some.inj same) other
  · obtain ⟨sent, phase⟩ := mem_auxMessages mem
    exact ⟨v, sent, phase, epoch, round⟩

/-- The first node accepts 3, and no quorum for 5 is there yet. -/
def threeAccepted : List Input :=
  [propose far, propose farther, val 3 1 5, val 4 1 5, val 2 1 3, val 4 1 3, tc 3, share 4 1]

theorem three_broadcast : ∃ v, Sent (.abaVal v) ((start 1).run (threeAccepted ++ [share 2 1, val 2 1 5])).log ∧
    v.phase = AUX_PHASE ∧ Event.binValue v.epoch v.round 5 ∈ ((start 1).run (threeAccepted ++ [share 2 1, val 2 1 5])).log ∧
    firstAccepted v.epoch v.round ((start 1).run (threeAccepted ++ [share 2 1, val 2 1 5])).log = some v.val := by
  have each : ∀ i < ((start 1).run (threeAccepted ++ [share 2 1, val 2 1 5])).log.length,
      ∀ p ∈ certificates ((start 1).run (threeAccepted ++ [share 2 1, val 2 1 5])).log[i]?.toList, p.IsStrong →
      firstAccepted p.epoch p.round (((start 1).run (threeAccepted ++ [share 2 1, val 2 1 5])).log.take i) = none ∨
        firstAccepted p.epoch p.round (((start 1).run (threeAccepted ++ [share 2 1, val 2 1 5])).log.take i) = some p.val ∨
        ∃ v ∈ auxMessages (((start 1).run (threeAccepted ++ [share 2 1, val 2 1 5])).log.take i),
          v.epoch = p.epoch ∧ v.round = p.round := by
    decide +kernel
  have out : ∃ v ∈ auxMessages ((start 1).run (threeAccepted ++ [share 2 1, val 2 1 5])).log,
      Event.binValue v.epoch v.round 5 ∈ ((start 1).run (threeAccepted ++ [share 2 1, val 2 1 5])).log := by
    decide +kernel
  obtain ⟨v, mem, five⟩ := out
  obtain ⟨sent, phase⟩ := mem_auxMessages mem
  exact ⟨v, sent, phase, five, aux_first_accepted (key 1) four ⟨500⟩ Map.empty env _ (timely_of each) v sent phase⟩

/-- The quorum for 5 comes a turn after 3 has been accepted, and the AUX message goes out with 5. -/
theorem five_broadcast : ∃ v, Sent (.abaVal v) ((start 1).run (threeAccepted ++ [val 2 1 5])).log ∧ v.phase = AUX_PHASE ∧
    v.val = 5 ∧ firstAccepted v.epoch v.round ((start 1).run (threeAccepted ++ [val 2 1 5])).log = some 3 := by
  have out : ∃ v ∈ auxMessages ((start 1).run (threeAccepted ++ [val 2 1 5])).log, v.val = 5 ∧
      firstAccepted v.epoch v.round ((start 1).run (threeAccepted ++ [val 2 1 5])).log = some 3 := by
    decide +kernel
  obtain ⟨v, mem, five, three⟩ := out
  obtain ⟨sent, phase⟩ := mem_auxMessages mem
  exact ⟨v, sent, phase, five, three⟩

end Sample
end HotstuffDag
