import HotstuffDag.Proof.AbaTrail

/-! # Accepted values and outputs of the agreement are inputs -/

namespace HotstuffDag
open Library

section
variable [Crypto] [Bincode]

/-! ## Accepted values -/

namespace System

/-- A value that no honest node puts into a round is accepted by none in that round. -/
theorem bin_values_justified (sys : System) (tolerant : sys.Tolerant) (trace : Trace) (valid : sys.Valid trace)
    (e r : SeqNumber) (v : UInt64) (absent : ∀ a, sys.Honest a → Event.abaInput e r v ∉ (sys.nodeAt trace a).log)
    (key : PublicKey) (honest : sys.Honest key) :
    Event.binValue e r v ∉ (sys.nodeAt trace key).log ∧
      ((sys.nodeAt trace key).core.epoch = e → (sys.nodeAt trace key).core.abaRound = r →
        v ∉ (sys.nodeAt trace key).core.binValues) := by
  have trail := trail_nodeAt tolerant valid honest
  have nobody : ¬ sys.IsInput (sys.logs trace) key (sys.logs trace key) e r v := by
    rw [isInput_logs]
    rintro ⟨a, good, taken⟩
    exact absent a good taken
  constructor
  · exact fun accepted => nobody (trail.accepts e r v accepted)
  · rintro rfl rfl mem
    exact nobody (trail.explained.bins v mem)

end System

/-! ## Outputs -/

/-- If `process_coin_share` goes on with the bit of the coin, the bit is one of the accepted values. -/
def AcceptedBit (core : Core) (coin : Nat) : Prop :=
  core.binValues.length ≠ 1 →
    (∀ proof ∈ core.abaAuxPhaseCache.get? (core.epoch, core.abaRound), proof.val % 2 ≠ UInt64.ofNat coin) →
    UInt64.ofNat coin ∈ core.binValues

instance (core : Core) (coin : Nat) : Decidable (AcceptedBit core coin) :=
  inferInstanceAs (Decidable (_ → _ → _))

def CoinAccepted (l : List Event) : Prop := ∀ core coin, Event.coinCall core coin ∈ l → AcceptedBit core coin

namespace System
variable {sys : System} {trace : Trace}

/-- Every value an honest node outputs in an epoch is the first input of an honest node in it. -/
def OutputsAreInputs (sys : System) (trace : Trace) : Prop :=
  ∀ key, sys.Honest key → ∀ e r v, Event.abaOutput e r v ∈ (sys.nodeAt trace key).log →
    ∃ a, sys.Honest a ∧ Event.abaInput e 1 v ∈ (sys.nodeAt trace a).log

/-- An input of a later round is an input of the round before. -/
theorem input_before (resilient : sys.Resilient) (valid : sys.Valid trace) {a : PublicKey} (honest : sys.Honest a)
    (accepted : CoinAccepted (sys.logs trace a)) {e r : SeqNumber} {v : UInt64}
    (taken : Event.abaInput e r v ∈ sys.logs trace a) :
    r = 1 ∨ ∃ r' b, r.toNat = r'.toNat + 1 ∧ sys.Honest b ∧ Event.abaInput e r' v ∈ sys.logs trace b := by
  obtain ⟨_, trail⟩ := trails resilient.tolerant valid a honest
  refine (trail.inputs e r v taken).imp_right fun ⟨core, coin, called, epoch, round, why⟩ => ?_
  have explained := (trail.coinCalls core coin called).1
  have bin : v ∈ core.binValues := by
    rcases why with ⟨single, -⟩ | ⟨several, rfl, none⟩
    · rw [single]
      exact List.mem_singleton.mpr rfl
    · refine accepted core coin called (fun one => ?_) none
      obtain ⟨w, single⟩ := List.length_eq_one_iff.mp one
      exact several w single
  obtain ⟨b, good, before⟩ := isInput_logs.mp (explained.bins v bin)
  rw [epoch] at before
  exact ⟨core.abaRound, b, round, good, before⟩

theorem input_first (resilient : sys.Resilient) (valid : sys.Valid trace)
    (accepted : ∀ a, sys.Honest a → CoinAccepted (sys.logs trace a)) {e : SeqNumber} {v : UInt64} (n : Nat) :
    ∀ (r : SeqNumber) (a : PublicKey), r.toNat = n → sys.Honest a → Event.abaInput e r v ∈ sys.logs trace a →
      ∃ b, sys.Honest b ∧ Event.abaInput e 1 v ∈ sys.logs trace b := by
  induction n with
  | zero =>
      intro r a number honest taken
      rcases input_before resilient valid honest (accepted a honest) taken with rfl | ⟨r', b, next, -⟩
      · exact ⟨a, honest, taken⟩
      · omega
  | succ n ih =>
      intro r a number honest taken
      rcases input_before resilient valid honest (accepted a honest) taken with rfl | ⟨r', b, next, good, before⟩
      · exact ⟨a, honest, taken⟩
      · exact ih r' b (by omega) good before

/-- Outputs are inputs in a run in which the bit of the coin is taken up by nodes only that have accepted it. -/
theorem outputs_are_inputs (sys : System) (resilient : sys.Resilient) (trace : Trace) (valid : sys.Valid trace)
    (accepted : ∀ key, sys.Honest key → CoinAccepted (sys.nodeAt trace key).log) : sys.OutputsAreInputs trace := by
  intro key honest e r v output
  obtain ⟨a, good, taken⟩ := output_input resilient.tolerant valid honest output
  exact input_first resilient valid accepted r.toNat r a rfl good taken

end System
end

namespace Sample

theorem unanimous_bins : Event.binValue 0 1 2 ∈ (system.nodeAt unanimous (key 1)).log ∧
    Event.binValue 0 1 3 ∉ (system.nodeAt unanimous (key 1)).log := by
  refine ⟨by decide +kernel, ?_⟩
  refine (System.bin_values_justified system (by decide) unanimous (by decide +kernel) 0 1 3 ?_ (key 1) (by decide)).1
  intro a honest
  have nobody : ∀ a ∈ four.keys, Event.abaInput 0 1 3 ∉ (system.nodeAt unanimous a).log := by decide +kernel
  exact nobody a honest.1

/-! ## An output that nobody put in -/

/-- The nodes put in 3 and 5, find the coin even, and go on with 0. -/
def bit : Trace :=
  [(key 1, share 4 2), (key 1, aux 2 2 0), (key 2, aux 4 2 0), (key 1, aux 4 2 0), (key 2, val 4 2 0),
    (key 2, val 1 2 0), (key 1, val 4 2 0), (key 1, val 2 2 0), (key 2, share 4 1), (key 1, share 4 1),
    (key 2, aux 4 1 3), (key 2, aux 1 1 3), (key 1, aux 4 1 3), (key 1, aux 2 1 3), (key 2, val 1 1 5),
    (key 2, val 4 1 5), (key 1, val 4 1 5), (key 1, val 2 1 5), (key 1, val 2 1 3), (key 1, val 4 1 3),
    (key 2, val 4 1 3), (key 2, val 1 1 3)] ++ changing 3 5

theorem bit_output : system.Resilient ∧ system.Valid bit ∧ ¬ system.OutputsAreInputs bit := by
  refine ⟨⟨by decide, by decide⟩, by decide +kernel, fun inputs => ?_⟩
  obtain ⟨a, honest, taken⟩ := inputs (key 1) (by decide) 0 2 0 (by decide +kernel)
  have nobody : ∀ a ∈ four.keys, Event.abaInput 0 1 0 ∉ (system.nodeAt bit a).log := by decide +kernel
  exact nobody a honest.1 taken

theorem unanimous_output : Event.abaOutput 0 1 2 ∈ (system.nodeAt unanimous (key 1)).log ∧
    system.OutputsAreInputs unanimous := by
  refine ⟨by decide +kernel, System.outputs_are_inputs system ⟨by decide, by decide⟩ unanimous (by decide +kernel) ?_⟩
  intro key honest core coin called
  have all : ∀ key ∈ four.keys, ∀ call ∈ coinCalls (system.nodeAt unanimous key).log, AcceptedBit call.1 call.2 := by
    decide +kernel
  exact all key honest.1 _ (mem_coinCalls called)

end Sample
end HotstuffDag
