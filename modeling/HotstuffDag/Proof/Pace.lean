import HotstuffDag.Library.Stamp
import HotstuffDag.Proof.AbaTrail
import HotstuffDag.Proof.Calm
import Mathlib.Data.Prod.Lex

/-! # The pace of the agreement

In each round of the agreement a node takes one input. It broadcasts the input and at most one other value, at
most one AUX message and at most one coin share. -/

namespace HotstuffDag
open Library Library.Exec

/-- A round of an epoch, in the order of time. -/
abbrev Point := ℕ ×ₗ ℕ

def point (epoch round : SeqNumber) : Point := toLex (epoch.toNat, round.toNat)

theorem point_inj {epoch round epoch' round' : SeqNumber} :
    point epoch round = point epoch' round' ↔ epoch = epoch' ∧ round = round' := by
  unfold point
  rw [toLex_inj, Prod.mk.injEq, UInt64.toNat_inj, UInt64.toNat_inj]

theorem point_lt_round {epoch round : SeqNumber} (small : round.toNat + 1 < 2 ^ 64) :
    point epoch round < point epoch (round + 1) := by
  unfold point
  rw [Prod.Lex.toLex_lt_toLex, toNat_succ small]
  exact .inr ⟨rfl, Nat.lt_succ_self _⟩

theorem point_lt_epoch {epoch : SeqNumber} (small : epoch.toNat + 1 < 2 ^ 64) (round round' : SeqNumber) :
    point epoch round < point (epoch + 1) round' := by
  unfold point
  rw [Prod.Lex.toLex_lt_toLex, toNat_succ small]
  exact .inl (Nat.lt_succ_self _)

def Core.now (k : Core) : Point := point k.epoch k.abaRound

/-! ## Marks in the log -/

namespace Event

/-- The round for which the event takes an input. -/
def inputMark : Event → Option Point
  | .abaInput epoch round _ => some (point epoch round)
  | _ => none

/-- The round of an AUX message that is broadcast. -/
def auxMark : Event → Option Point
  | .transmit _ (.abaVal v) _ => if v.phase = AUX_PHASE then some (point v.epoch v.round) else none
  | _ => none

/-- The round of a coin share that is broadcast. -/
def shareMark : Event → Option Point
  | .transmit _ (.abaCoinShare share) _ => some (point share.epoch share.round)
  | _ => none

/-- The round of a VAL message that is broadcast with a value that is not the input. -/
def extraMark (l : List Event) : Event → Option Point
  | .transmit _ (.abaVal v) _ =>
      if v.phase = VAL_PHASE ∧ .abaInput v.epoch v.round v.val ∉ l then some (point v.epoch v.round) else none
  | _ => none

instance : DecidablePred Event.ofRound := fun e => by
  unfold Event.ofRound
  split <;> infer_instance

end Event

/-- The log of the rounds. -/
def rounds (l : List Event) : List Event := l.filter fun e => e.ofRound

theorem rounds_append (l l' : List Event) : rounds (l ++ l') = rounds l ++ rounds l' := List.filter_append _ _

theorem rounds_snoc {l : List Event} {e : Event} (round : e.ofRound) : rounds (l ++ [e]) = rounds l ++ [e] := by
  rw [rounds_append]
  exact congrArg (rounds l ++ ·) (List.filter_cons_of_pos (by simpa using round))

theorem rounds_other {l : List Event} {e : Event} (other : ¬ e.ofRound) : rounds (l ++ [e]) = rounds l := by
  rw [rounds_append]
  have none : rounds [e] = [] := List.filter_cons_of_neg (by simpa using other)
  rw [none, List.append_nil]

theorem mem_rounds {l : List Event} {e : Event} : e ∈ rounds l ↔ e ∈ l ∧ e.ofRound := by
  unfold rounds
  simp

section
variable {l : List Event} {tag : UInt8} {addresses : List SocketAddr}

/-- A broadcast takes no input, so it leaves the other marks as they are. -/
theorem extraMark_broadcast (m : ConsensusMessage) (e : Event) :
    e.extraMark (l ++ [.transmit tag m addresses]) = e.extraMark l := by
  have same (epoch round : SeqNumber) (val : UInt64) :
      Event.abaInput epoch round val ∈ l ++ [.transmit tag m addresses] ↔ Event.abaInput epoch round val ∈ l := by simp
  unfold Event.extraMark
  split
  · simp only [same]
  · rfl

/-- An input of a round in which nothing has been broadcast. -/
theorem extraMarks_input {epoch round : SeqNumber} {val : UInt64} (fresh : point epoch round ∉ l.filterMap Event.inputMark)
    (founded : ∀ v, Sent (.abaVal v) l → v.phase = VAL_PHASE → point v.epoch v.round ∈ l.filterMap Event.inputMark) :
    (l ++ [Event.abaInput epoch round val]).filterMap (Event.extraMark (l ++ [.abaInput epoch round val])) =
      l.filterMap (Event.extraMark l) := by
  rw [List.filterMap_append]
  have last : [Event.abaInput epoch round val].filterMap (Event.extraMark (l ++ [.abaInput epoch round val])) = [] := rfl
  rw [last, List.append_nil]
  refine List.filterMap_congr fun e mem => ?_
  unfold Event.extraMark
  split
  · rename_i tag v addresses
    by_cases phase : v.phase = VAL_PHASE
    · have known := founded v ⟨tag, addresses, mem⟩ phase
      have other : Event.abaInput v.epoch v.round v.val ≠ .abaInput epoch round val := by
        intro same
        obtain ⟨rfl, rfl, -⟩ := Event.abaInput.inj same
        exact fresh known
      simp [other]
    · simp [phase]
  · rfl

end

/-! ## The invariant -/

/-- A core without what the pace does not depend on. -/
def Core.pace (k : Core) : Core :=
  { k with
    store := Map.empty
    isViewChange := false
    auxProofBroadcasted := false
    pubkeyToChain := Map.empty
    tcCache := Map.empty
    aggregator := { Aggregator.new with abaValsAggregators := k.aggregator.abaValsAggregators }
    binValues := []
    abaOutputVal := none
    auxValueNums := Map.empty
    abaCoinCache := Map.empty
    abaProofCache := Map.empty }

/-- A certificate is kept for its own round. -/
def Keyed (cache : Map (SeqNumber × SeqNumber) ABAProof) (phase : UInt8) : Prop :=
  ∀ epoch round proof, cache.get? (epoch, round) = some proof →
    proof.epoch = epoch ∧ proof.round = round ∧ proof.phase = phase

/-- A value has been broadcast. -/
def Cast (l : List Event) (epoch round : SeqNumber) (phase : UInt8) (val : UInt64) : Prop :=
  ∃ v, Sent (.abaVal v) l ∧ v.epoch = epoch ∧ v.round = round ∧ v.phase = phase ∧ v.val = val

theorem Cast.mono {l l' : List Event} {epoch round : SeqNumber} {phase : UInt8} {val : UInt64} (h : Cast l epoch round phase val)
    (le : l <+: l') : Cast l' epoch round phase val := by
  obtain ⟨v, sent, same⟩ := h
  exact ⟨v, sent.mono le, same⟩

/-- What a node has broadcast in the rounds of the agreement, and what it remembers of it. -/
structure Paced (name : PublicKey) (k : Core) (l : List Event) : Prop where
  named : k.name = name
  weak : Keyed k.abaValPhaseCache1 VAL_PHASE
  strong : Keyed k.abaValPhaseCache2 VAL_PHASE
  aux : Keyed k.abaAuxPhaseCache AUX_PHASE
  fresh : k.tcProcessed = false → k.abaRound = 1 ∧ k.phase = INIT_PHASE
  inputs : Stamped (l.filterMap Event.inputMark) k.now k.tcProcessed
  extras : Stamped (l.filterMap (Event.extraMark l)) k.now k.valValueBroadcasted
  auxs : Stamped (l.filterMap Event.auxMark) k.now k.auxValueBroadcasted
  shares : Stamped (l.filterMap Event.shareMark) k.now k.coinShareBroadcasted
  held : ∀ round val, k.abaInputVal.get? round = some val → Event.abaInput k.epoch round val ∈ l
  founded : ∀ v, Sent (.abaVal v) l → v.phase = VAL_PHASE → point v.epoch v.round ∈ l.filterMap Event.inputMark
  counted : ∀ epoch round phase val maker,
    k.aggregator.abaValsAggregators.get? (epoch, round, phase, val) = some maker → name ∈ maker.used →
    Cast l epoch round phase val
  dealt : k.coinShareBroadcasted = true → k.now ∈ l.filterMap Event.shareMark

namespace Paced
variable {name : PublicKey} {k k' : Core} {l : List Event} {tag : UInt8} {addresses : List SocketAddr}

theorem pace_iff : Paced name k.pace l ↔ Paced name k l :=
  ⟨fun h => ⟨h.named, h.weak, h.strong, h.aux, h.fresh, h.inputs, h.extras, h.auxs, h.shares, h.held, h.founded, h.counted, h.dealt⟩,
    fun h => ⟨h.named, h.weak, h.strong, h.aux, h.fresh, h.inputs, h.extras, h.auxs, h.shares, h.held, h.founded, h.counted, h.dealt⟩⟩

theorem congr (h : Paced name k l) (same : k'.pace = k.pace) : Paced name k' l := by
  rw [← pace_iff, same, pace_iff]
  exact h

theorem inputAt (h : Paced name k l) {round : SeqNumber} {val : UInt64} (held : k.abaInputVal.get? round = some val) :
    point k.epoch round ∈ l.filterMap Event.inputMark :=
  List.mem_filterMap.mpr ⟨_, h.held round val held, rfl⟩

theorem one_input (h : Paced name k l) {epoch round : SeqNumber} {input input' : UInt64}
    (mem : Event.abaInput epoch round input ∈ l) (mem' : Event.abaInput epoch round input' ∈ l) : input' = input := by
  have same := eq_of_mark h.inputs.once mem' mem rfl rfl
  exact (Event.abaInput.inj same).2.2

theorem unmarked {marks : List Point} {flag : Bool} (h : Stamped marks k.now flag) (down : flag = false) :
    Stamped marks k.now false := by
  rw [down] at h
  exact h

/-- The agreement leaves its first phase with the input of the epoch. -/
theorem processed (h : Paced name k l) (begun : k.phase ≠ INIT_PHASE) : k.tcProcessed = true := by
  cases processed : k.tcProcessed with
  | true => rfl
  | false => exact absurd (h.fresh processed).2 begun

/-- The own name is not counted with what has not been broadcast. -/
theorem unused (h : Paced name k l) {epoch round : SeqNumber} {phase : UInt8} {val : UInt64} (silent : ¬ Cast l epoch round phase val) :
    name ∉ (k.aggregator.abaValsAggregators.getD (epoch, round, phase, val) Maker.new).used := by
  intro used
  unfold Map.getD at used
  cases found : k.aggregator.abaValsAggregators.get? (epoch, round, phase, val) with
  | none =>
      rw [found] at used
      exact absurd used List.not_mem_nil
  | some maker =>
      rw [found] at used
      exact silent (h.counted epoch round phase val maker found used)

/-- Without an input of the round nothing has been broadcast in its first phase. -/
theorem silent (h : Paced name k l) {epoch round : SeqNumber} (before : point epoch round ∉ l.filterMap Event.inputMark)
    (val : UInt64) : ¬ Cast l epoch round VAL_PHASE val := by
  rintro ⟨v, sent, rfl, rfl, phase, -⟩
  exact before (h.founded v sent phase)

/-- Before the flag is raised no value but the input has been broadcast. -/
theorem unamplified (h : Paced name k l) (down : k.valValueBroadcasted = false) {input val : UInt64}
    (held : k.abaInputVal.get? k.abaRound = some input) (other : input ≠ val) : ¬ Cast l k.epoch k.abaRound VAL_PHASE val := by
  rintro ⟨v, ⟨tag, addresses, mem⟩, epoch, round, phase, rfl⟩
  have new : Event.abaInput v.epoch v.round v.val ∉ l := by
    intro taken
    rw [epoch, round] at taken
    exact other (h.one_input taken (h.held _ _ held))
  have marked : Event.extraMark l (.transmit tag (.abaVal v) addresses) = some k.now := by
    unfold Event.extraMark Core.now
    rw [← epoch, ← round]
    exact if_pos ⟨phase, new⟩
  exact (unmarked h.extras down).unmarked (List.mem_filterMap.mpr ⟨_, mem, marked⟩)

/-- Before the flag is raised no AUX message has been broadcast. -/
theorem unaccepted (h : Paced name k l) (down : k.auxValueBroadcasted = false) (val : UInt64) :
    ¬ Cast l k.epoch k.abaRound AUX_PHASE val := by
  rintro ⟨v, ⟨tag, addresses, mem⟩, epoch, round, phase, rfl⟩
  have marked : Event.auxMark (.transmit tag (.abaVal v) addresses) = some k.now := by
    unfold Event.auxMark Core.now
    rw [← epoch, ← round]
    exact if_pos phase
  exact (unmarked h.auxs down).unmarked (List.mem_filterMap.mpr ⟨_, mem, marked⟩)

/-- Nothing has been broadcast in the next round. -/
theorem unreached (h : Paced name k l) (small : k.abaRound.toNat + 1 < 2 ^ 64) (val : UInt64) :
    ¬ Cast l k.epoch (k.abaRound + 1) VAL_PHASE val :=
  h.silent (h.inputs.later (point_lt_round small) false).unmarked val

/-- Before the input of the epoch nothing has been broadcast in its first round. -/
theorem first (h : Paced name k l) (fresh : k.tcProcessed = false) : point k.epoch 1 ∉ l.filterMap Event.inputMark := by
  have now : k.now = point k.epoch 1 := by rw [Core.now, (h.fresh fresh).1]
  rw [← now]
  exact (unmarked h.inputs fresh).unmarked

theorem setPhase (h : Paced name k l) (processed : k.tcProcessed = true) (phase : UInt8) :
    Paced name { k with phase := phase } l := by
  refine ⟨h.named, h.weak, h.strong, h.aux, fun down => ?_, h.inputs, h.extras, h.auxs, h.shares, h.held, h.founded, h.counted, h.dealt⟩
  rw [processed] at down
  contradiction

/-! ### Broadcasts -/

/-- The marks of a broadcast. -/
theorem marks_broadcast (l : List Event) (tag : UInt8) (addresses : List SocketAddr) (m : ConsensusMessage) :
    (l ++ [Event.transmit tag m addresses]).filterMap Event.inputMark = l.filterMap Event.inputMark ∧
      (l ++ [Event.transmit tag m addresses]).filterMap (Event.extraMark (l ++ [.transmit tag m addresses])) =
        l.filterMap (Event.extraMark l) ++ [Event.transmit tag m addresses].filterMap (Event.extraMark l) := by
  rw [List.filterMap_append, List.filterMap_append]
  refine ⟨List.append_nil _, ?_⟩
  rw [List.filterMap_congr fun e _ => extraMark_broadcast m e, List.filterMap_congr fun e _ => extraMark_broadcast m e]

theorem sent_snoc {m m' : ConsensusMessage} (h : Sent m (l ++ [.transmit tag m' addresses])) : Sent m l ∨ m = m' := by
  rcases sent_append h with old | ⟨_, _, new⟩
  · exact .inl old
  · simp only [List.mem_singleton, Event.transmit.injEq] at new
    exact .inr new.2.1

/-- A broadcast with the flags that follow it. -/
theorem broadcast (h : Paced name k l) (m : ConsensusMessage) {valFlag auxFlag shareFlag : Bool}
    (extras : Stamped (l.filterMap (Event.extraMark l) ++ [Event.transmit tag m addresses].filterMap (Event.extraMark l))
      k.now valFlag)
    (auxs : Stamped (l.filterMap Event.auxMark ++ [Event.transmit tag m addresses].filterMap Event.auxMark) k.now auxFlag)
    (shares : Stamped (l.filterMap Event.shareMark ++ [Event.transmit tag m addresses].filterMap Event.shareMark)
      k.now shareFlag)
    (founded : ∀ v, m = .abaVal v → v.phase = VAL_PHASE → point v.epoch v.round ∈ l.filterMap Event.inputMark)
    (dealt : shareFlag = true → k.now ∈ l.filterMap Event.shareMark ++ [Event.transmit tag m addresses].filterMap Event.shareMark) :
    Paced name { k with
      valValueBroadcasted := valFlag
      auxValueBroadcasted := auxFlag
      coinShareBroadcasted := shareFlag } (l ++ [.transmit tag m addresses]) := by
  obtain ⟨inputMarks, extraMarks⟩ := marks_broadcast l tag addresses m
  refine ⟨h.named, h.weak, h.strong, h.aux, h.fresh, ?_, ?_, ?_, ?_, ?_, ?_, ?_, ?_⟩
  · rw [inputMarks]
    exact h.inputs
  · rw [extraMarks]
    exact extras
  · rw [List.filterMap_append]
    exact auxs
  · rw [List.filterMap_append]
    exact shares
  · exact fun round val held => List.mem_append_left _ (h.held round val held)
  · intro v sent phase
    rw [inputMarks]
    rcases sent_snoc sent with old | same
    · exact h.founded v old phase
    · exact founded v same.symm phase
  · exact fun epoch round phase val maker found used =>
      (h.counted epoch round phase val maker found used).mono (List.prefix_append _ _)
  · intro up
    rw [List.filterMap_append]
    exact dealt up

theorem castInput (h : Paced name k l) {v : ABAVal} (phase : v.phase = VAL_PHASE)
    (taken : Event.abaInput v.epoch v.round v.val ∈ l) : Paced name k (l ++ [.transmit tag (.abaVal v) addresses]) := by
  have notAux : ¬ v.phase = AUX_PHASE := by
    rw [phase]
    decide
  refine h.broadcast (.abaVal v) ?_ ?_ ?_ (fun v' same _ => ?_) fun up => List.mem_append_left _ (h.dealt up)
  · have none : [Event.transmit tag (.abaVal v) addresses].filterMap (Event.extraMark l) = [] := by
      simp [Event.extraMark, taken]
    rw [none, List.append_nil]
    exact h.extras
  · have none : [Event.transmit tag (.abaVal v) addresses].filterMap Event.auxMark = [] := by
      simp [Event.auxMark, notAux]
    rw [none, List.append_nil]
    exact h.auxs
  · exact (List.append_nil _).symm ▸ h.shares
  · obtain rfl := ConsensusMessage.abaVal.inj same
    exact List.mem_filterMap.mpr ⟨_, taken, rfl⟩

theorem amplify (h : Paced name k l) {v : ABAVal} (down : k.valValueBroadcasted = false) (phase : v.phase = VAL_PHASE)
    (here : point v.epoch v.round = k.now) (input : k.now ∈ l.filterMap Event.inputMark) :
    Paced name { k with valValueBroadcasted := true } (l ++ [.transmit tag (.abaVal v) addresses]) := by
  have notAux : ¬ v.phase = AUX_PHASE := by
    rw [phase]
    decide
  refine h.broadcast (.abaVal v) ?_ ?_ ?_ (fun v' same _ => ?_) fun up => List.mem_append_left _ (h.dealt up)
  · by_cases taken : Event.abaInput v.epoch v.round v.val ∈ l
    · have none : [Event.transmit tag (.abaVal v) addresses].filterMap (Event.extraMark l) = [] := by
        simp [Event.extraMark, taken]
      rw [none, List.append_nil]
      exact h.extras.raise
    · have one : [Event.transmit tag (.abaVal v) addresses].filterMap (Event.extraMark l) = [k.now] := by
        simp [Event.extraMark, phase, taken, here]
      rw [one]
      exact (unmarked h.extras down).mark
  · have none : [Event.transmit tag (.abaVal v) addresses].filterMap Event.auxMark = [] := by
      simp [Event.auxMark, notAux]
    rw [none, List.append_nil]
    exact h.auxs
  · exact (List.append_nil _).symm ▸ h.shares
  · obtain rfl := ConsensusMessage.abaVal.inj same
    rw [here]
    exact input

theorem castAux (h : Paced name k l) {v : ABAVal} (down : k.auxValueBroadcasted = false) (phase : v.phase = AUX_PHASE)
    (here : point v.epoch v.round = k.now) :
    Paced name { k with auxValueBroadcasted := true } (l ++ [.transmit tag (.abaVal v) addresses]) := by
  have notVal : ¬ v.phase = VAL_PHASE := by
    rw [phase]
    decide
  refine h.broadcast (.abaVal v) ?_ ?_ ?_ (fun v' same val => ?_) fun up => List.mem_append_left _ (h.dealt up)
  · have none : [Event.transmit tag (.abaVal v) addresses].filterMap (Event.extraMark l) = [] := by
      simp [Event.extraMark, notVal]
    rw [none, List.append_nil]
    exact h.extras
  · have one : [Event.transmit tag (.abaVal v) addresses].filterMap Event.auxMark = [k.now] := by
      simp [Event.auxMark, phase, here]
    rw [one]
    exact (unmarked h.auxs down).mark
  · exact (List.append_nil _).symm ▸ h.shares
  · obtain rfl := ConsensusMessage.abaVal.inj same
    exact absurd val notVal

theorem castShare (h : Paced name k l) {share : RandomnessShare} (down : k.coinShareBroadcasted = false)
    (here : point share.epoch share.round = k.now) :
    Paced name { k with coinShareBroadcasted := true } (l ++ [.transmit tag (.abaCoinShare share) addresses]) := by
  have one : [Event.transmit tag (.abaCoinShare share) addresses].filterMap Event.shareMark = [k.now] := by
    simp [Event.shareMark, here]
  refine h.broadcast (.abaCoinShare share) ?_ ?_ ?_ (fun v same => by contradiction) fun _ => ?_
  · exact (List.append_nil _).symm ▸ h.extras
  · exact (List.append_nil _).symm ▸ h.auxs
  · rw [one]
    exact (unmarked h.shares down).mark
  · rw [one]
    exact List.mem_append_right _ (List.mem_singleton_self _)

/-! ### Inputs -/

/-- The marks of an input, in a round in which nothing has been broadcast. -/
theorem marks_input (h : Paced name k l) {epoch round : SeqNumber} (val : UInt64)
    (new : point epoch round ∉ l.filterMap Event.inputMark) :
    (l ++ [Event.abaInput epoch round val]).filterMap Event.inputMark = l.filterMap Event.inputMark ++ [point epoch round] ∧
      (l ++ [Event.abaInput epoch round val]).filterMap (Event.extraMark (l ++ [.abaInput epoch round val])) =
        l.filterMap (Event.extraMark l) :=
  ⟨List.filterMap_append, extraMarks_input new h.founded⟩

/-- The state after an input, for any state of the fields that a new round resets. -/
theorem input (h : Paced name k l) {round : SeqNumber} {val : UInt64} (named : k'.name = k.name) (epoch : k'.epoch = k.epoch)
    (current : k'.abaRound = round) (new : point k.epoch round ∉ l.filterMap Event.inputMark)
    (processed : k'.tcProcessed = true) (inputVal : k'.abaInputVal = k.abaInputVal.insert round val)
    (aggregator : k'.aggregator = k.aggregator) (weak : Keyed k'.abaValPhaseCache1 VAL_PHASE)
    (strong : Keyed k'.abaValPhaseCache2 VAL_PHASE) (aux : Keyed k'.abaAuxPhaseCache AUX_PHASE)
    (inputs : Stamped (l.filterMap Event.inputMark ++ [k'.now]) k'.now true)
    (extras : Stamped (l.filterMap (Event.extraMark l)) k'.now k'.valValueBroadcasted)
    (auxs : Stamped (l.filterMap Event.auxMark) k'.now k'.auxValueBroadcasted)
    (shares : Stamped (l.filterMap Event.shareMark) k'.now k'.coinShareBroadcasted)
    (dealt : k'.coinShareBroadcasted = true → k'.now ∈ l.filterMap Event.shareMark) :
    Paced name k' (l ++ [.abaInput k.epoch round val]) := by
  obtain ⟨inputMarks, extraMarks⟩ := marks_input h val new
  have now : k'.now = point k.epoch round := by rw [Core.now, epoch, current]
  have grown {p : Point} (old : p ∈ l.filterMap Event.inputMark) : p ∈ l.filterMap Event.inputMark ++ [point k.epoch round] :=
    List.mem_append_left _ old
  refine ⟨named.trans h.named, weak, strong, aux, fun down => ?_, ?_, ?_, ?_, ?_, ?_, ?_, ?_, fun up => ?_⟩
  · rw [processed] at down
    contradiction
  · rw [inputMarks, processed, ← now]
    exact inputs
  · rw [extraMarks]
    exact extras
  · rw [List.filterMap_append]
    exact (List.append_nil _).symm ▸ auxs
  · rw [List.filterMap_append]
    exact (List.append_nil _).symm ▸ shares
  · intro round' val' held
    rw [inputVal, Map.get?_insert] at held
    rw [epoch]
    split at held
    · rename_i same
      rw [← same, ← Option.some.inj held]
      exact List.mem_append_right _ (List.mem_singleton_self _)
    · exact List.mem_append_left _ (h.held round' val' held)
  · intro v sent phase
    rw [inputMarks]
    rcases sent_append sent with old | ⟨_, _, new⟩
    · exact grown (h.founded v old phase)
    · simp at new
  · intro epoch' round' phase' val' maker found used
    rw [aggregator] at found
    exact (h.counted epoch' round' phase' val' maker found used).mono (List.prefix_append _ _)
  · rw [List.filterMap_append]
    exact List.mem_append_left _ (dealt up)

/-- The input of the first round is taken once. -/
theorem takeInput (h : Paced name k l) (val : UInt64) (fresh : k.tcProcessed = false) :
    Paced name { k.takeInput 1 val with tcProcessed := true } (l ++ [.abaInput k.epoch 1 val]) := by
  have inputs := unmarked h.inputs fresh
  exact h.input rfl rfl (h.fresh fresh).1 (h.first fresh) rfl rfl rfl h.weak h.strong h.aux inputs.mark h.extras h.auxs
    h.shares h.dealt

theorem Keyed.retain {cache : Map (SeqNumber × SeqNumber) ABAProof} {phase : UInt8} (h : Keyed cache phase)
    (p : SeqNumber × SeqNumber → Bool) : Keyed (cache.retain p) phase :=
  fun epoch round proof found => h epoch round proof (Map.get?_of_retain found).2

/-- A new round begins with its input. -/
theorem nextRound (h : Paced name k l) (val : UInt64) (small : k.abaRound.toNat + 1 < 2 ^ 64) (processed : k.tcProcessed = true) :
    Paced name (k.nextRound val) (l ++ [.abaInput k.epoch (k.abaRound + 1) val]) := by
  have later : k.now < (k.nextRound val).now := point_lt_round small
  have inputs := h.inputs.later later false
  exact h.input rfl rfl rfl inputs.unmarked processed rfl rfl (Keyed.retain h.weak _) (Keyed.retain h.strong _)
    (Keyed.retain h.aux _) inputs.mark (h.extras.later later _) (h.auxs.later later _) (h.shares.later later _)
    fun up => by contradiction

theorem nextEpoch (h : Paced name k l) (small : k.epoch.toNat + 1 < 2 ^ 64) : Paced name k.nextEpoch l := by
  have later : k.now < k.nextEpoch.now := point_lt_epoch small _ _
  refine ⟨h.named, Keyed.retain h.weak _, Keyed.retain h.strong _, Keyed.retain h.aux _, fun _ => ⟨rfl, rfl⟩,
    h.inputs.later later _, h.extras.later later _, h.auxs.later later _, h.shares.later later _, fun round val held => ?_,
    h.founded, fun epoch round phase val maker found used => ?_, fun up => by contradiction⟩
  · simp [Core.nextEpoch] at held
  · exact h.counted epoch round phase val maker (Map.get?_of_retain found).2 used

/-! ### Hearing a value -/

theorem append_spec (maker : ABAProofMaker) (v : ABAVal) (c : Committee) :
    (∀ a ∈ (maker.append v c).2.used, a = v.author ∨ a ∈ maker.used) ∧
      ∀ proof, (maker.append v c).1 = .ok (some proof) →
        proof.epoch = v.epoch ∧ proof.round = v.round ∧ proof.phase = v.phase := by
  unfold ABAProofMaker.append
  split
  · exact ⟨fun a mem => .inr mem, fun proof same => by contradiction⟩
  have pushed : ∀ a ∈ (maker.push v.author (v.author, v.signature) (c.stake v.author)).used,
      a = v.author ∨ a ∈ maker.used := fun a mem => List.mem_cons.mp mem
  dsimp only
  split
  · refine ⟨pushed, fun proof same => ?_⟩
    rw [← Option.some.inj (Except.ok.inj same)]
    exact ⟨rfl, rfl, rfl⟩
  · split
    · refine ⟨pushed, fun proof same => ?_⟩
      rw [← Option.some.inj (Except.ok.inj same)]
      exact ⟨rfl, rfl, rfl⟩
    · exact ⟨pushed, fun proof same => by simp at same⟩

theorem Keyed.kept {cache : Map (SeqNumber × SeqNumber) ABAProof} {phase : UInt8} (h : Keyed cache phase)
    {result : ConsensusResult (Option ABAProof)} (wanted : ABAProof → Bool)
    (made : ∀ proof, result = .ok (some proof) → proof.phase = phase) : Keyed (Core.keptProof wanted cache result) phase := by
  intro epoch round proof found
  unfold Core.keptProof at found
  split at found
  · rename_i completed
    split at found
    · rw [Map.get?_insert] at found
      split at found
      · rename_i same
        obtain rfl := Option.some.inj found
        obtain ⟨rfl, rfl⟩ := Prod.mk.inj same
        exact ⟨rfl, rfl, made _ rfl⟩
      · exact h epoch round proof found
    · exact h epoch round proof found
  · exact h epoch round proof found

/-- The own name is counted with the values that have been broadcast. -/
theorem countedAfter (h : Paced name k l) {v : ABAVal} (known : v.author = name → Cast l v.epoch v.round v.phase v.val)
    {epoch round : SeqNumber} {phase : UInt8} {val : UInt64} {maker : ABAProofMaker}
    (found : (k.aggregator.addAbaVal v k.committee).2.abaValsAggregators.get? (epoch, round, phase, val) = some maker)
    (used : name ∈ maker.used) : Cast l epoch round phase val := by
  unfold Aggregator.addAbaVal at found
  dsimp only at found
  rw [Map.get?_insert] at found
  split at found
  · rename_i same
    simp only [Prod.mk.injEq] at same
    obtain ⟨rfl, rfl, rfl, rfl⟩ := same
    rw [← Option.some.inj found] at used
    rcases (append_spec _ v k.committee).1 name used with own | old
    · exact known own.symm
    · by_contra silent
      exact h.unused silent old
  · exact h.counted epoch round phase val maker found used

theorem hearVal (h : Paced name k l) {v : ABAVal} (phase : v.phase = VAL_PHASE)
    (known : v.author = name → Cast l v.epoch v.round v.phase v.val) : Paced name (k.hearVal v) l := by
  have made (proof : ABAProof) (completed : (k.aggregator.addAbaVal v k.committee).1 = .ok (some proof)) :
      proof.phase = VAL_PHASE := ((append_spec _ v k.committee).2 proof completed).2.2.trans phase
  exact ⟨h.named, Keyed.kept h.weak _ made, Keyed.kept h.strong _ made, h.aux, h.fresh, h.inputs, h.extras, h.auxs, h.shares,
    h.held, h.founded, fun _ _ _ _ _ found used => h.countedAfter known found used, h.dealt⟩

theorem hearAux (h : Paced name k l) {v : ABAVal} (phase : v.phase = AUX_PHASE)
    (known : v.author = name → Cast l v.epoch v.round v.phase v.val) : Paced name (k.hearAux v) l := by
  have made (proof : ABAProof) (completed : (k.aggregator.addAbaVal v k.committee).1 = .ok (some proof)) :
      proof.phase = AUX_PHASE := ((append_spec _ v k.committee).2 proof completed).2.2.trans phase
  exact ⟨h.named, h.weak, h.strong, Keyed.kept h.aux _ made, h.fresh, h.inputs, h.extras, h.auxs, h.shares, h.held,
    h.founded, fun _ _ _ _ _ found used => h.countedAfter known found used, h.dealt⟩

theorem new (name : PublicKey) (committee : Committee) (parameters : Parameters) (store : Store) :
    Paced name (Core.new name committee parameters store) [] := by
  have empty (phase : UInt8) : Keyed Map.empty phase := fun _ _ _ found => by contradiction
  refine ⟨rfl, empty _, empty _, empty _, fun _ => ⟨rfl, rfl⟩, .nil, .nil, .nil, .nil, fun _ _ held => ?_, fun v sent => ?_,
    fun _ _ _ _ _ found => ?_, fun up => by contradiction⟩
  · simp [Core.new] at held
  · obtain ⟨_, _, mem⟩ := sent
    exact absurd mem List.not_mem_nil
  · simp [Core.new, Aggregator.new] at found

end Paced

/-! ## Once in a round -/

/-- An AUX message of the round is broadcast. -/
def Event.castsAux (epoch round : SeqNumber) : Event → Bool
  | .transmit _ (.abaVal v) _ => v.phase = AUX_PHASE ∧ v.epoch = epoch ∧ v.round = round
  | _ => false

/-- A coin share of the round is broadcast. -/
def Event.castsShare (epoch round : SeqNumber) : Event → Bool
  | .transmit _ (.abaCoinShare share) _ => share.epoch = epoch ∧ share.round = round
  | _ => false

/-- What a log shows of a round of the agreement: one AUX message and one coin share at most, and VAL messages
for the input and one other value at most. -/
structure OncePerRound (l : List Event) (epoch round : SeqNumber) : Prop where
  aux : l.countP (Event.castsAux epoch round) ≤ 1
  share : l.countP (Event.castsShare epoch round) ≤ 1
  vals : ∃ input amplified, ∀ v, Sent (.abaVal v) l → v.phase = VAL_PHASE → v.epoch = epoch → v.round = round →
    Event.abaInput epoch round input ∈ l ∧ (v.val = input ∨ v.val = amplified)

theorem countP_le_one {l : List Event} {f : Event → Option Point} (once : (l.filterMap f).Nodup) {p : Event → Bool} {m : Point}
    (marked : ∀ e, p e = true → f e = some m) : l.countP p ≤ 1 := by
  have counted := List.nodup_iff_count_le_one.mp once m
  rw [List.count_filterMap] at counted
  refine (List.countP_mono_left fun e _ shown => ?_).trans counted
  rw [marked e shown]
  exact beq_self_eq_true _

theorem countP_rounds {l : List Event} {p : Event → Bool} (round : ∀ e, p e = true → e.ofRound) :
    (rounds l).countP p = l.countP p := by
  unfold rounds
  rw [List.countP_filter]
  refine List.countP_congr fun e _ => ?_
  simpa using round e

namespace Event
variable {epoch round : SeqNumber} {e : Event}

theorem castsAux_mark (h : e.castsAux epoch round = true) : e.ofRound ∧ e.auxMark = some (point epoch round) := by
  unfold castsAux at h
  split at h
  · simp only [Bool.decide_and, Bool.and_eq_true, decide_eq_true_eq] at h
    obtain ⟨phase, rfl, rfl⟩ := h
    exact ⟨trivial, if_pos phase⟩
  · contradiction

theorem castsShare_mark (h : e.castsShare epoch round = true) : e.ofRound ∧ e.shareMark = some (point epoch round) := by
  unfold castsShare at h
  split at h
  · simp only [Bool.decide_and, Bool.and_eq_true, decide_eq_true_eq] at h
    obtain ⟨rfl, rfl⟩ := h
    exact ⟨trivial, rfl⟩
  · contradiction

theorem inputMark_eq (h : e.inputMark = some (point epoch round)) : ∃ input, e = .abaInput epoch round input := by
  unfold inputMark at h
  split at h
  · rename_i epoch' round' input
    obtain ⟨rfl, rfl⟩ := point_inj.mp (Option.some.inj h)
    exact ⟨input, rfl⟩
  · contradiction

end Event

theorem sent_rounds {l : List Event} {v : ABAVal} : Sent (.abaVal v) (rounds l) ↔ Sent (.abaVal v) l := by
  unfold Sent
  simp only [mem_rounds]
  exact ⟨fun ⟨tag, addresses, mem, _⟩ => ⟨tag, addresses, mem⟩, fun ⟨tag, addresses, mem⟩ => ⟨tag, addresses, mem, trivial⟩⟩

namespace Paced
variable {name : PublicKey} {k : Core} {l : List Event} {epoch round : SeqNumber}

/-- A VAL message is broadcast in a round that has its input. -/
theorem begun (h : Paced name k l) {v : ABAVal} (sent : Sent (.abaVal v) l) (phase : v.phase = VAL_PHASE) :
    ∃ input, Event.abaInput v.epoch v.round input ∈ l := by
  obtain ⟨e, mem, mark⟩ := List.mem_filterMap.mp (h.founded v sent phase)
  obtain ⟨input, rfl⟩ := Event.inputMark_eq mark
  exact ⟨input, mem⟩

/-- Two values of a round that are not its input are the same value. -/
theorem one_extra (h : Paced name k l) {input : UInt64} (taken : Event.abaInput epoch round input ∈ l) {v w : ABAVal}
    (sent : Sent (.abaVal v) l) (phase : v.phase = VAL_PHASE) (here : v.epoch = epoch ∧ v.round = round) (new : v.val ≠ input)
    (sent' : Sent (.abaVal w) l) (phase' : w.phase = VAL_PHASE) (here' : w.epoch = epoch ∧ w.round = round)
    (new' : w.val ≠ input) : v.val = w.val := by
  have marked {u : ABAVal} {tag : UInt8} {addresses : List SocketAddr} (phase : u.phase = VAL_PHASE)
      (here : u.epoch = epoch ∧ u.round = round) (new : u.val ≠ input) :
      Event.extraMark l (.transmit tag (.abaVal u) addresses) = some (point epoch round) := by
    obtain ⟨rfl, rfl⟩ := here
    exact if_pos ⟨phase, fun mem => new (h.one_input taken mem)⟩
  obtain ⟨tag, addresses, mem⟩ := sent
  obtain ⟨tag', addresses', mem'⟩ := sent'
  have one := eq_of_mark h.extras.once mem mem' (marked phase here new) (marked phase' here' new')
  simp only [Event.transmit.injEq, ConsensusMessage.abaVal.injEq] at one
  rw [one.2.1]

theorem two_values (h : Paced name k l) (epoch round : SeqNumber) : ∃ input amplified, ∀ v, Sent (.abaVal v) l → v.phase = VAL_PHASE →
    v.epoch = epoch → v.round = round → Event.abaInput epoch round input ∈ l ∧ (v.val = input ∨ v.val = amplified) := by
  by_cases begun : ∃ input, Event.abaInput epoch round input ∈ l
  · obtain ⟨input, taken⟩ := begun
    by_cases other : ∃ w, Sent (.abaVal w) l ∧ w.phase = VAL_PHASE ∧ (w.epoch = epoch ∧ w.round = round) ∧ w.val ≠ input
    · obtain ⟨w, sent', phase', here', new'⟩ := other
      refine ⟨input, w.val, fun v sent phase epoch' round' => ⟨taken, ?_⟩⟩
      by_cases same : v.val = input
      · exact .inl same
      · exact .inr (h.one_extra taken sent phase ⟨epoch', round'⟩ same sent' phase' here' new')
    · refine ⟨input, input, fun v sent phase epoch' round' => ⟨taken, .inl ?_⟩⟩
      by_contra new
      exact other ⟨v, sent, phase, ⟨epoch', round'⟩, new⟩
  · refine ⟨0, 0, fun v sent phase epoch' round' => absurd ?_ begun⟩
    rw [← epoch', ← round']
    exact h.begun sent phase

theorem oncePerRound {l : List Event} (h : Paced name k (rounds l)) (epoch round : SeqNumber) : OncePerRound l epoch round := by
  have auxs : (rounds l).countP (Event.castsAux epoch round) ≤ 1 :=
    countP_le_one h.auxs.once fun e shown => (Event.castsAux_mark shown).2
  have shares : (rounds l).countP (Event.castsShare epoch round) ≤ 1 :=
    countP_le_one h.shares.once fun e shown => (Event.castsShare_mark shown).2
  rw [countP_rounds fun e shown => (Event.castsAux_mark shown).1] at auxs
  rw [countP_rounds fun e shown => (Event.castsShare_mark shown).1] at shares
  obtain ⟨input, amplified, vals⟩ := h.two_values epoch round
  refine ⟨auxs, shares, input, amplified, fun v sent phase epoch' round' => ?_⟩
  obtain ⟨taken, val⟩ := vals v (sent_rounds.mpr sent) phase epoch' round'
  exact ⟨(mem_rounds.mp taken).1, val⟩

end Paced

end HotstuffDag
