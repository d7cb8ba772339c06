import HotstuffDag.Proof.Pace
import HotstuffDag.Proof.Primed
import HotstuffDag.Proof.AbaValidity
import HotstuffDag.Proof.Stages

/-! # What a change of the round keeps

`advance_aba_round` and `update_aba_phase` filter the same five caches by their keys. -/

namespace HotstuffDag
open Library Library.Exec

/-- The caches that a new round filters. -/
inductive RoundCache
  | valPhase1
  | valPhase2
  | auxPhase
  | auxNums
  | proofs
  deriving DecidableEq

/-- The cache has an entry for the key. -/
def RoundCache.holds (k : Core) (key : SeqNumber × SeqNumber) : RoundCache → Bool
  | .valPhase1 => k.abaValPhaseCache1.contains key
  | .valPhase2 => k.abaValPhaseCache2.contains key
  | .auxPhase => k.abaAuxPhaseCache.contains key
  | .auxNums => k.auxValueNums.contains key
  | .proofs => k.abaProofCache.contains key

section

namespace Core
variable {k : Core} {key : SeqNumber × SeqNumber} {cache : RoundCache}

/-- A new round keeps the entries of its epoch, from its own round on. -/
theorem holds_nextRound (val : UInt64) : cache.holds (k.nextRound val) key = true ↔
    (key.1 = k.epoch ∧ key.2 ≥ k.abaRound + 1) ∧ cache.holds k key = true := by
  cases cache <;> simp [RoundCache.holds, nextRound, retainRound, Map.contains_retain]

/-- A new epoch keeps its own entries and all later ones. -/
theorem holds_nextEpoch : cache.holds k.nextEpoch key = true ↔ key.1 ≥ k.epoch + 1 ∧ cache.holds k key = true := by
  cases cache <;> simp [RoundCache.holds, nextEpoch, Map.contains_retain]

/-- A certificate enters a cache for the epoch of the value that completes it. -/
theorem contains_keptProof {wanted : ABAProof → Bool} {m : Map (SeqNumber × SeqNumber) ABAProof} {v : ABAVal}
    (h : (keptProof wanted m (k.aggregator.addAbaVal v k.committee).1).contains key = true) :
    m.contains key = true ∨ key.1 = v.epoch := by
  unfold keptProof at h
  split at h
  · rename_i proof completed
    split at h
    · rw [Map.contains_insert, Bool.or_eq_true, decide_eq_true_eq] at h
      rcases h with rfl | old
      · exact .inr ((Paced.append_spec _ v k.committee).2 proof completed).1
      · exact .inl old
    · exact .inl h
  · exact .inl h

/-- The node stays in its round; entries come in, and only for its epoch. -/
structure Fills (s t : State) : Prop where
  epoch : t.core.epoch = s.core.epoch
  round : t.core.abaRound = s.core.abaRound
  old : ∀ (cache : RoundCache) key, cache.holds s.core key = true → cache.holds t.core key = true
  new : ∀ (cache : RoundCache) key, cache.holds t.core key = true → cache.holds s.core key = true ∨ key.1 = s.core.epoch

instance : Std.Refl Fills := ⟨fun _ => ⟨rfl, rfl, fun _ _ h => h, fun _ _ h => .inl h⟩⟩

instance : IsTrans State Fills where
  trans := fun s t u h h' => by
    refine ⟨h'.epoch.trans h.epoch, h'.round.trans h.round, fun cache key held => h'.old cache key (h.old cache key held), ?_⟩
    intro cache key held
    rcases h'.new cache key held with held | here
    · exact h.new cache key held
    · exact .inr (here.trans h.epoch)

variable [Crypto]

/-- A broadcast value may complete a certificate. -/
theorem leads_broadcast_fills {s : State} {v : ABAVal} (epoch : v.epoch = s.core.epoch) :
    Leads Fills (broadcastAbaVal v) s fun _ _ => True := by
  have quiet (addresses : List SocketAddr) : Fills s { s with log := s.log ++ [.transmit TCVBA (.abaVal v) addresses] } :=
    ⟨rfl, rfl, fun _ _ h => h, fun _ _ h => .inl h⟩
  refine leads_transmit quiet fun addresses => (leads_hear (fun _ _ _ => ?_) fun _ _ _ => ?_).weaken fun _ _ _ _ => trivial
  · refine ⟨rfl, rfl, fun cache key held => ?_, fun cache key held => ?_⟩
    · cases cache with
      | valPhase1 | valPhase2 => exact isSome_keptProof held
      | _ => exact held
    · cases cache with
      | valPhase1 | valPhase2 => exact (contains_keptProof held).imp_right fun here => here.trans epoch
      | _ => exact .inl held
  · refine ⟨rfl, rfl, fun cache key held => ?_, fun cache key held => ?_⟩
    · cases cache with
      | auxPhase => exact isSome_keptProof held
      | auxNums =>
          change (Map.insert _ _ _).contains key = true
          rw [Map.contains_insert, Bool.or_eq_true]
          exact .inr held
      | _ => exact held
    · cases cache with
      | auxPhase => exact (contains_keptProof held).imp_right fun here => here.trans epoch
      | auxNums =>
          change (Map.insert _ _ _).contains key = true at held
          rw [Map.contains_insert, Bool.or_eq_true, decide_eq_true_eq] at held
          rcases held with rfl | old
          · exact .inr epoch
          · exact .inl old
      | _ => exact .inl held

/-- The state in which the value of the next round is broadcast. -/
abbrev inNextRound (s : State) (val : UInt64) : State := { s with
  core := s.core.nextRound val
  log := s.log ++ [.abaInput s.core.epoch (s.core.abaRound + 1) val] ++
    [.signed (.abaVal (.new s.core.name s.core.epoch (s.core.abaRound + 1) val VAL_PHASE))] }

theorem advanceAbaRound_run {s : State} (val : UInt64) (small : s.core.abaRound.toNat + 1 < 2 ^ 64) :
    advanceAbaRound val s =
      broadcastAbaVal (.new s.core.name s.core.epoch (s.core.abaRound + 1) val VAL_PHASE) (inNextRound s val) := by
  unfold advanceAbaRound checkedAdd
  have fits : s.core.abaRound.toNat + UInt64.toNat 1 < 2 ^ 64 := small
  simp only [bind_eq, getCore_run, if_pos fits]
  rfl

theorem advanceAbaRound_stuck {s : State} (val : UInt64) (large : ¬ s.core.abaRound.toNat + 1 < 2 ^ 64) :
    final (advanceAbaRound val) s = s := by
  unfold advanceAbaRound checkedAdd final
  have full : ¬ s.core.abaRound.toNat + UInt64.toNat 1 < 2 ^ 64 := large
  simp only [bind_eq, getCore_run, if_neg full]
  rfl

end Core

variable [Crypto]

/-! ## The change of the round -/

/-- `advance_aba_round` removes only what lies before the round that it comes to. -/
def KeepsFuture (s : State) (val : UInt64) : Prop :=
  ∀ (cache : RoundCache) key, cache.holds s.core key = true →
    ¬ point key.1 key.2 < (final (Core.advanceAbaRound val) s).core.now →
    cache.holds (final (Core.advanceAbaRound val) s).core key = true

/-- What a new round leaves of an entry. -/
theorem fills_nextRound {s : State} (val : UInt64) (small : s.core.abaRound.toNat + 1 < 2 ^ 64) :
    Core.Fills (Core.inNextRound s val) (final (Core.advanceAbaRound val) s) := by
  have filled := (Core.leads_broadcast_fills (s := Core.inNextRound s val)
    (v := .new s.core.name s.core.epoch (s.core.abaRound + 1) val VAL_PHASE) rfl).final
  unfold final at filled ⊢
  rw [Core.advanceAbaRound_run val small]
  exact filled

theorem drops_future {s : State} {val : UInt64} (small : s.core.abaRound.toNat + 1 < 2 ^ 64) {cache : RoundCache}
    {key : SeqNumber × SeqNumber} (held : cache.holds s.core key = true) (later : s.core.epoch < key.1) : ¬ KeepsFuture s val := by
  intro keeps
  have fills := fills_nextRound val small
  have now : (final (Core.advanceAbaRound val) s).core.now = point s.core.epoch (s.core.abaRound + 1) := by
    unfold Core.now
    rw [fills.epoch, fills.round]
    rfl
  have still := keeps cache key held (by
    rw [now]
    unfold point
    rw [Prod.Lex.toLex_lt_toLex]
    rw [UInt64.lt_iff_toNat_lt] at later
    omega)
  rcases fills.new cache key still with kept | here
  · have same := ((Core.holds_nextRound val).mp kept).1.1
    rw [same] at later
    exact absurd later (UInt64.lt_irrefl _)
  · change key.1 = s.core.epoch at here
    rw [here] at later
    exact absurd later (UInt64.lt_irrefl _)

/-- A change of the round keeps the future if and only if nothing of a later epoch has come in yet. -/
theorem keeps_future_iff (s : State) (val : UInt64) : KeepsFuture s val ↔
    2 ^ 64 ≤ s.core.abaRound.toNat + 1 ∨
      ∀ (cache : RoundCache) key, cache.holds s.core key = true → ¬ s.core.epoch < key.1 := by
  constructor
  · intro keeps
    by_cases small : s.core.abaRound.toNat + 1 < 2 ^ 64
    · exact .inr fun cache key held later => drops_future small held later keeps
    · exact .inl (Nat.le_of_not_lt small)
  · intro condition cache key held ahead
    by_cases small : s.core.abaRound.toNat + 1 < 2 ^ 64
    · have early := condition.resolve_left (Nat.not_le.mpr small) cache key held
      have fills := fills_nextRound val small
      refine fills.old cache key ((Core.holds_nextRound val).mpr ⟨?_, held⟩)
      unfold Core.now at ahead
      rw [fills.epoch, fills.round] at ahead
      unfold point at ahead
      rw [Prod.Lex.toLex_lt_toLex] at ahead
      rw [UInt64.lt_iff_toNat_lt] at early
      have epoch : key.1 = s.core.epoch := by
        rw [← UInt64.toNat_inj]
        change ¬ (key.1.toNat < s.core.epoch.toNat ∨ _) at ahead
        omega
      refine ⟨epoch, ?_⟩
      change ¬ (_ ∨ key.1.toNat = s.core.epoch.toNat ∧ key.2.toNat < (s.core.abaRound + 1).toNat) at ahead
      change s.core.abaRound + 1 ≤ key.2
      rw [UInt64.le_iff_toNat_le]
      rw [epoch] at ahead
      omega
    · rw [Core.advanceAbaRound_stuck val small]
      exact held

end

namespace Sample

/-- An AUX message of the next epoch. -/
def auxNext (n : Nat) : Input := .deliver .smvba (.abaVal (.new (key n) 1 1 0 AUX_PHASE)) env

/-- The message comes before the share that completes the coin of the first round. -/
def fastPeer : List Input := inputsOf 1 (bit.drop 10) ++ [auxNext 4, share 4 1]

theorem future_dropped : ∃ core coin, Event.coinCall core coin ∈ ((start 1).run fastPeer).log ∧
    Event.abaInput 0 (core.abaRound + 1) 0 ∈ ((start 1).run fastPeer).log ∧
    ∀ chain log env, ¬ KeepsFuture ⟨core, chain, log, env⟩ 0 := by
  have called : ∃ call ∈ coinCalls ((start 1).run fastPeer).log,
      Event.abaInput 0 (call.1.abaRound + 1) 0 ∈ ((start 1).run fastPeer).log ∧ call.1.abaRound.toNat + 1 < 2 ^ 64 ∧
        RoundCache.holds call.1 (1, 1) .auxNums = true ∧ call.1.epoch < 1 := by
    decide +kernel
  obtain ⟨⟨core, coin⟩, mem, advanced, small, held, later⟩ := called
  exact ⟨core, coin, called_of_mem mem, advanced, fun chain log env => drops_future small held later⟩

end Sample
end HotstuffDag
