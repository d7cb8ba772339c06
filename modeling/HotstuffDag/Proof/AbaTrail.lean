import HotstuffDag.Proof.AbaCerts

/-! # The trail of the agreement

What an honest node has logged about the agreement, explained by what honest nodes have logged
before. -/

namespace HotstuffDag
open Library Library.Exec
namespace System
variable {sys : System} {past : Past} {key : PublicKey} {l l' : List Event}

/-- The node has logged the event, where the log of the node `key` has become `l`. -/
def Logged (past : Past) (key : PublicKey) (l : List Event) (a : PublicKey) (e : Event) : Prop :=
  e ∈ past a ∨ a = key ∧ e ∈ l

/-- If the authority is honest, it has broadcast a value with these bytes. -/
def Claimed (sys : System) (past : Past) (key : PublicKey) (l : List Event) (a : PublicKey) (m : List UInt8) : Prop :=
  sys.Honest a → ∃ v tag addresses, Logged past key l a (.transmit tag (.abaVal v) addresses) ∧ v.preimage = m

/-- The value is the input of an honest node in the round. -/
def IsInput (sys : System) (past : Past) (key : PublicKey) (l : List Event) (e r : SeqNumber) (v : UInt64) : Prop :=
  ∃ a, sys.Honest a ∧ Logged past key l a (.abaInput e r v)

/-- One reach of the system lies before another. -/
def Before (past : Past) (key : PublicKey) (l : List Event) (past' : Past) (key' : PublicKey)
    (l' : List Event) : Prop :=
  ∀ a e, Logged past key l a e → Logged past' key' l' a e

theorem Before.log (le : l <+: l') : Before past key l past key l' :=
  fun _ _ h => h.imp_right fun ⟨same, mem⟩ => ⟨same, le.subset mem⟩

theorem Before.grow {past' : Past} (le : ∀ a, past a <+: past' a) : Before past key l past' key l :=
  fun a _ h => h.imp_left fun mem => (le a).subset mem

/-- A node between two steps. -/
theorem Before.other (a : PublicKey) : Before past a (past a) past key l := by
  intro b e h
  rcases h with mem | ⟨rfl, mem⟩
  · exact .inl mem
  · exact .inl mem

section
variable {past' : Past} {key' : PublicKey} (le : Before past key l past' key' l')
include le

theorem Claimed.mono {a : PublicKey} {m : List UInt8} (h : sys.Claimed past key l a m) :
    sys.Claimed past' key' l' a m := fun honest =>
  let ⟨v, tag, addresses, logged, same⟩ := h honest
  ⟨v, tag, addresses, le _ _ logged, same⟩

theorem IsInput.mono {e r : SeqNumber} {v : UInt64} (h : sys.IsInput past key l e r v) :
    sys.IsInput past' key' l' e r v :=
  let ⟨a, honest, logged⟩ := h
  ⟨a, honest, le _ _ logged⟩

end

/-! ## Honest voters -/

theorem Tolerant.honest (tolerant : sys.Tolerant) {P : PublicKey → Prop} {votes : List (PublicKey × Signature)}
    {threshold : Nat} (backed : Backed (sys.ordered key) threshold P votes)
    (heavy : (sys.ordered key).randomCoinThreshold ≤ threshold) : ∃ a, sys.Honest a ∧ P a := by
  have weight := heavy.trans backed.weight
  rw [Committee.randomCoinThreshold_perm (sys.perm _), Committee.stake_perm (sys.perm _)] at weight
  obtain ⟨a, mem, honest⟩ := tolerant.honest_of_weight weight
  exact ⟨a, honest, backed.each a (List.mem_toFinset.mp mem)⟩

/-! ## The trail -/

/-- What a core of the node holds is explained. -/
structure Explained (sys : System) (past : Past) (key : PublicKey) (l : List Event) (k : Core) : Prop where
  committee : k.committee = sys.ordered key
  certs : AbaCerts (sys.Claimed past key l) k
  bins : ∀ v ∈ k.binValues, sys.IsInput past key l k.epoch k.abaRound v
  nonempty : k.phase ≥ AUX_PHASE → k.binValues ≠ []
  nodup : k.binValues.Nodup
  round : 1 ≤ k.abaRound.toNat
  coins : ∀ e r coin, k.abaCoinCache.get? (e, r) = some coin → Event.coin e r coin ∈ l

/-- What the log of the node says is explained. -/
structure Trail (sys : System) (past : Past) (key : PublicKey) (k : Core) (l : List Event) : Prop where
  name : k.name = key
  explained : sys.Explained past key l k
  authors : ∀ v, Sent (.abaVal v) l → v.author = key
  cast : ∀ v, Sent (.abaVal v) l → sys.IsInput past key l v.epoch v.round v.val
  accepts : ∀ e r v, Event.binValue e r v ∈ l → sys.IsInput past key l e r v
  coinCalls : ∀ core coin, Event.coinCall core coin ∈ l → sys.Explained past key l core ∧
    core.phase ≥ COIN_PHASE ∧ Event.coin core.epoch core.abaRound coin ∈ l
  proofCalls : ∀ core proof, Event.proofCall core proof ∈ l → sys.Explained past key l core ∧
    core.abaProofCache.get? (core.epoch, core.abaRound) = some proof
  inputs : ∀ e r v, Event.abaInput e r v ∈ l → r = 1 ∨ ∃ core coin, Event.coinCall core coin ∈ l ∧
    core.epoch = e ∧ r.toNat = core.abaRound.toNat + 1 ∧ CoinInput core coin v
  outputs : ∀ e r v, Event.abaOutput e r v ∈ l →
    (∃ core coin, Event.coinCall core coin ∈ l ∧ core.epoch = e ∧ core.abaRound = r ∧ CoinOutput core coin v) ∨
    ∃ core proof coin, Event.proofCall core proof ∈ l ∧ core.epoch = e ∧ core.abaRound = r ∧ proof.val = v ∧
      Event.coin e r coin ∈ l ∧ v % 2 = UInt64.ofNat coin

section
variable {past' : Past} {k : Core}

theorem Explained.mono (h : sys.Explained past key l k) (le : Before past key l past' key l')
    (grown : ∀ e, e ∈ l → e ∈ l') : sys.Explained past' key l' k where
  committee := h.committee
  certs := h.certs.mono fun _ _ claim => claim.mono le
  bins := fun v mem => (h.bins v mem).mono le
  nonempty := h.nonempty
  nodup := h.nodup
  round := h.round
  coins := fun e r coin cached => grown _ (h.coins e r coin cached)

theorem Trail.later (h : sys.Trail past key k l) (le : ∀ a, past a <+: past' a) : sys.Trail past' key k l where
  name := h.name
  explained := h.explained.mono (.grow le) fun _ h => h
  authors := h.authors
  cast := fun v sent => (h.cast v sent).mono (.grow le)
  accepts := fun e r v mem => (h.accepts e r v mem).mono (.grow le)
  coinCalls := fun core coin called => (h.coinCalls core coin called).imp_left fun h => h.mono (.grow le) fun _ h => h
  proofCalls := fun core proof called => (h.proofCalls core proof called).imp_left fun h => h.mono (.grow le) fun _ h => h
  inputs := h.inputs
  outputs := h.outputs

/-! ## Certificates speak of inputs -/

/-- The values that honest nodes have broadcast are inputs. -/
def Voiced (sys : System) (past : Past) (key : PublicKey) (l : List Event) : Prop :=
  ∀ a v tag addresses, sys.Honest a → Logged past key l a (.transmit tag (.abaVal v) addresses) →
    sys.IsInput past key l v.epoch v.round v.val

theorem Tolerant.input (tolerant : sys.Tolerant) (voiced : sys.Voiced past key l) {proof : ABAProof}
    {threshold : Nat} (heavy : (sys.ordered key).randomCoinThreshold ≤ threshold)
    (backed : Backed (sys.ordered key) threshold (sys.Claimed past key l · proof.preimage) proof.votes) :
    sys.IsInput past key l proof.epoch proof.round proof.val := by
  obtain ⟨a, honest, claimed⟩ := tolerant.honest backed heavy
  obtain ⟨v, tag, addresses, logged, same⟩ := claimed honest
  obtain ⟨epoch, round, val, -⟩ := abaPreimage_inj.mp same
  rw [← epoch, ← round, ← val]
  exact voiced a v tag addresses honest logged

namespace Explained
variable {got : ConsensusMessage → Prop} {k' : Core}

theorem accepted_input (h : sys.Explained past key l k) (tolerant : sys.Tolerant)
    (voiced : sys.Voiced past key l) {e r : SeqNumber} {proof : ABAProof}
    (cached : k.abaValPhaseCache2.get? (e, r) = some proof) : sys.IsInput past key l e r proof.val := by
  obtain ⟨rfl, rfl, -, backed⟩ := h.certs.strong _ _ proof cached
  rw [h.committee] at backed
  exact tolerant.input voiced (coin_le_quorum _) backed

theorem amplified_input (h : sys.Explained past key l k) (tolerant : sys.Tolerant)
    (voiced : sys.Voiced past key l) {e r : SeqNumber} {proof : ABAProof}
    (cached : k.abaValPhaseCache1.get? (e, r) = some proof) :
    sys.IsInput past key l proof.epoch proof.round proof.val := by
  obtain ⟨-, -, -, backed⟩ := h.certs.weak _ _ proof cached
  rw [h.committee] at backed
  exact tolerant.input voiced (Nat.le_refl _) backed

theorem aux_input (h : sys.Explained past key l k) (tolerant : sys.Tolerant)
    (voiced : sys.Voiced past key l) {e r : SeqNumber} {proof : ABAProof}
    (cached : k.abaAuxPhaseCache.get? (e, r) = some proof) : sys.IsInput past key l e r proof.val := by
  obtain ⟨rfl, rfl, -, backed⟩ := h.certs.aux _ _ proof cached
  rw [h.committee] at backed
  exact tolerant.input voiced (coin_le_quorum _) backed

theorem proof_input (h : sys.Explained past key l k) (tolerant : sys.Tolerant)
    (voiced : sys.Voiced past key l) {e r : SeqNumber} {proof : ABAProof}
    (cached : k.abaProofCache.get? (e, r) = some proof) : sys.IsInput past key l e r proof.val := by
  obtain ⟨rfl, rfl, backed⟩ := h.certs.proofs _ _ proof cached
  rw [h.committee] at backed
  exact tolerant.input voiced (coin_le_quorum _) backed

theorem act [Crypto] (h : sys.Explained past key l k) (act : AbaAct got k l k' l') (tolerant : sys.Tolerant)
    (voiced : sys.Voiced past key l)
    (heard : ∀ v, got (.abaVal v) ∨ Sent (.abaVal v) l → v.verify = .ok () →
      sys.Claimed past key l v.author v.preimage)
    (proved : ∀ proof, got (.abaProof proof) → proof.verify k.committee = .ok () →
      ∀ a ∈ proof.votes.map Prod.fst, sys.Claimed past key l a proof.preimage) :
    sys.Explained past key l' k' where
  committee := act.frame.committee.trans h.committee
  certs := (act.certs heard proved h.certs).mono fun _ _ claim => claim.mono (.log act.frame.log)
  bins := by
    intro v mem
    obtain ⟨epoch, round, origin⟩ := act.accepted mem
    rw [epoch, round]
    refine IsInput.mono (.log act.frame.log) ?_
    rcases origin with old | ⟨proof, cached, rfl⟩
    · exact h.bins v old
    · exact h.accepted_input tolerant voiced cached
  nonempty := by
    intro late
    have early : ¬ VAL_PHASE ≥ AUX_PHASE := by decide
    cases act with
    | enterVal | nextRound => exact absurd late early
    | enterAux _ bin => exact bin
    | enterCoin phase => exact h.nonempty (by rw [phase]; decide)
    | accept cached => exact List.ne_nil_of_mem (List.mem_insert_self)
    | _ => exact h.nonempty late
  nodup := by
    cases act with
    | accept => exact h.nodup.insert
    | nextRound => exact List.nodup_nil
    | _ => exact h.nodup
  round := act.round_pos h.round
  coins := by
    intro e r coin cached
    rcases act.coined cached with old | logged
    · exact act.frame.log.subset (h.coins e r coin old)
    · exact logged

theorem nextEpoch (h : sys.Explained past key l k) : sys.Explained past key l k.nextEpoch where
  committee := h.committee
  certs := h.certs.nextEpoch
  bins := fun v mem => by simp [Core.nextEpoch] at mem
  nonempty := fun late => absurd late (by decide : ¬ INIT_PHASE ≥ AUX_PHASE)
  nodup := List.nodup_nil
  round := Nat.le_refl 1
  coins := fun e r coin cached => h.coins e r coin (Map.get?_of_retain cached).2

theorem agreement (h : sys.Explained past key l k) (same : k'.agreement = k.agreement) :
    sys.Explained past key l k' := by
  have epoch := Core.agreement_eq Core.epoch (fun _ => rfl) same
  have round := Core.agreement_eq Core.abaRound (fun _ => rfl) same
  have bins := Core.agreement_eq Core.binValues (fun _ => rfl) same
  have phase := Core.agreement_eq Core.phase (fun _ => rfl) same
  have coins := Core.agreement_eq Core.abaCoinCache (fun _ => rfl) same
  refine ⟨(Core.agreement_eq Core.committee (fun _ => rfl) same).trans h.committee, h.certs.agreement same, ?_, ?_, ?_, ?_, ?_⟩
  · rw [epoch, round, bins]
    exact h.bins
  · rw [phase, bins]
    exact h.nonempty
  · rw [bins]
    exact h.nodup
  · rw [round]
    exact h.round
  · rw [coins]
    exact h.coins

end Explained

namespace Trail
variable {got : ConsensusMessage → Prop} {k' : Core}

theorem voiced (h : sys.Trail past key k l)
    (others : ∀ a, sys.Honest a → ∃ k, sys.Trail past a k (past a)) :
    sys.Voiced past key l := by
  intro a v tag addresses honest logged
  rcases logged with old | ⟨rfl, mem⟩
  · obtain ⟨_, trail⟩ := others a honest
    exact (trail.cast v ⟨tag, addresses, old⟩).mono (.other a)
  · exact h.cast v ⟨tag, addresses, mem⟩

/-- Acts that log nothing of the agreement. -/
theorem keep (h : sys.Trail past key k l) (le : l <+: l') (events : ∀ e, e.aboutAba → e ∈ l' → e ∈ l)
    (name : k'.name = k.name) (explained : sys.Explained past key l' k') : sys.Trail past key k' l' := by
  have sent (v : ABAVal) (h : Sent (.abaVal v) l') : Sent (.abaVal v) l :=
    h.imp fun _ => Exists.imp fun _ => events _ trivial
  refine ⟨name.trans h.name, explained, fun v mem => h.authors v (sent v mem), ?_, ?_, ?_, ?_, ?_, ?_⟩
  · exact fun v mem => (h.cast v (sent v mem)).mono (.log le)
  · exact fun e r v mem => (h.accepts e r v (events _ trivial mem)).mono (.log le)
  · intro core coin called
    obtain ⟨explained, phase, logged⟩ := h.coinCalls core coin (events _ trivial called)
    exact ⟨explained.mono (.log le) fun _ h => le.subset h, phase, le.subset logged⟩
  · intro core proof called
    obtain ⟨explained, cached⟩ := h.proofCalls core proof (events _ trivial called)
    exact ⟨explained.mono (.log le) fun _ h => le.subset h, cached⟩
  · intro e r v taken
    refine (h.inputs e r v (events _ trivial taken)).imp_right fun ⟨core, coin, called, why⟩ => ?_
    exact ⟨core, coin, le.subset called, why⟩
  · intro e r v output
    refine (h.outputs e r v (events _ trivial output)).imp ?_ ?_
    · exact fun ⟨core, coin, called, why⟩ => ⟨core, coin, le.subset called, why⟩
    · exact fun ⟨core, proof, coin, called, epoch, round, val, logged, parity⟩ =>
        ⟨core, proof, coin, le.subset called, epoch, round, val, le.subset logged, parity⟩

theorem act [Crypto] (h : sys.Trail past key k l) (act : AbaAct got k l k' l') (tolerant : sys.Tolerant)
    (honest : sys.Honest key) (voiced : sys.Voiced past key l)
    (heard : ∀ v, got (.abaVal v) ∨ Sent (.abaVal v) l → v.verify = .ok () →
      sys.Claimed past key l v.author v.preimage)
    (proved : ∀ proof, got (.abaProof proof) → proof.verify k.committee = .ok () →
      ∀ a ∈ proof.votes.map Prod.fst, sys.Claimed past key l a proof.preimage) :
    sys.Trail past key k' l' := by
  have le := act.frame.log
  have grown : ∀ e, e ∈ l → e ∈ l' := fun _ h => le.subset h
  refine ⟨act.frame.name.trans h.name, h.explained.act act tolerant voiced heard proved, ?_, ?_, ?_, ?_, ?_, ?_, ?_⟩
  · intro v sent
    rcases act.sent sent with old | new
    · exact h.authors v old
    · cases new with
      | input author | amplified author | accepted author => exact author.trans h.name
  · intro v sent
    refine IsInput.mono (.log le) ?_
    rcases act.sent sent with old | new
    · exact h.cast v old
    · cases new with
      | input _ _ taken => exact ⟨key, honest, .inr ⟨rfl, taken⟩⟩
      | amplified _ _ cached same =>
          rw [same.1, same.2.1, same.2.2.1]
          exact h.explained.amplified_input tolerant voiced cached
      | accepted _ _ cached same =>
          rw [same.1, same.2.1, same.2.2]
          have strong := h.explained.certs.strong _ _ _ cached
          rw [strong.1, strong.2.1]
          exact h.explained.accepted_input tolerant voiced cached
  · intro e r v mem
    refine IsInput.mono (.log le) ?_
    rcases act.logged mem trivial with old | new
    · exact h.accepts e r v old
    · cases new with
      | accepted cached => exact h.explained.accepted_input tolerant voiced cached
  · intro core coin called
    rcases act.logged called trivial with old | new
    · obtain ⟨explained, phase, logged⟩ := h.coinCalls core coin old
      exact ⟨explained.mono (.log le) grown, phase, grown _ logged⟩
    · cases new with
      | coinCall phase cached =>
          exact ⟨h.explained.mono (.log le) grown, phase, grown _ (h.explained.coins _ _ _ cached)⟩
  · intro core proof called
    rcases act.logged called trivial with old | new
    · obtain ⟨explained, cached⟩ := h.proofCalls core proof old
      exact ⟨explained.mono (.log le) grown, cached⟩
    · cases new with
      | proofCall cached => exact ⟨h.explained.mono (.log le) grown, cached⟩
  · intro e r v taken
    rcases act.logged taken trivial with old | new
    · refine (h.inputs e r v old).imp_right fun ⟨core, coin, called, why⟩ => ?_
      exact ⟨core, coin, grown _ called, why⟩
    · cases new with
      | firstInput => exact .inl rfl
      | nextInput called why small =>
          exact .inr ⟨k, _, grown _ called, rfl, toNat_succ small, why⟩
  · intro e r v output
    rcases act.logged output trivial with old | new
    · refine (h.outputs e r v old).imp ?_ ?_
      · exact fun ⟨core, coin, called, why⟩ => ⟨core, coin, grown _ called, why⟩
      · exact fun ⟨core, proof, coin, called, epoch, round, val, logged, parity⟩ =>
          ⟨core, proof, coin, grown _ called, epoch, round, val, grown _ logged, parity⟩
    · cases new with
      | coinOutput called why => exact .inl ⟨k, _, grown _ called, rfl, rfl, why⟩
      | proofOutput called coined parity =>
          obtain ⟨explained, cached⟩ := h.proofCalls _ _ called
          obtain ⟨epoch, round, -⟩ := explained.certs.proofs _ _ _ cached
          rw [epoch, round] at coined
          exact .inr ⟨k, _, _, grown _ called, rfl, rfl, rfl, grown _ (h.explained.coins _ _ _ coined), parity⟩

end Trail

end

/-! ## All honest nodes leave trails -/

theorem aba_of_released {l : List Event} {e r val : SeqNumber} {ph : UInt8} (h : abaPreimage e r val ph ∈ released l) :
    ∃ v, Sent (.abaVal v) l ∧ v.preimage = abaPreimage e r val ph := by
  rcases mem_released h with ⟨x, -, kind, same⟩ | sent
  · have val : x.preimage = Signed.preimage (.abaVal ⟨PublicKey.zero, e, r, ph, val, Signature.zero⟩) := same
    exact absurd val.symm (Signed.preimage_length_ne (.inr rfl) (by simpa [Signed.kind] using kind.symm))
  · exact sent

theorem AuthenticIn.claimed [Crypto] {claims : List SignatureClaim} (authentic : sys.AuthenticIn past claims) {a : PublicKey}
    {signature : Signature} {e r val : SeqNumber} {ph : UInt8}
    (mem : ⟨a, abaPreimage e r val ph, signature⟩ ∈ claims)
    (verified : Crypto.verify signature (Crypto.sha512 (abaPreimage e r val ph)) a = true) :
    sys.Claimed past key l a (abaPreimage e r val ph) := by
  intro honest
  obtain ⟨v, ⟨tag, addresses, sent⟩, same⟩ := aba_of_released (authentic _ mem honest verified)
  exact ⟨v, tag, addresses, .inl sent, same⟩

theorem Trail.heard [Crypto] {k : Core} (h : sys.Trail past key k l) {input : Input} (allowed : sys.AllowedIn past input)
    (v : ABAVal) (msg : Received (· = input) (.abaVal v) ∨ Sent (.abaVal v) l) (verified : v.verify = .ok ()) :
    sys.Claimed past key l v.author v.preimage := by
  rcases msg with ⟨channel, env, rfl⟩ | sent
  · exact AuthenticIn.claimed (allowed _ _ _ rfl) (List.mem_singleton.mpr rfl) (ensure_ok.mp verified)
  · intro _
    obtain ⟨tag, addresses, mem⟩ := sent
    exact ⟨v, tag, addresses, .inr ⟨h.authors v ⟨tag, addresses, mem⟩, mem⟩, rfl⟩

theorem proved [Crypto] {input : Input} (allowed : sys.AllowedIn past input) {committee : Committee} (proof : ABAProof)
    (msg : Received (· = input) (.abaProof proof)) (verified : proof.verify committee = .ok ()) :
    ∀ a ∈ proof.votes.map Prod.fst, sys.Claimed past key l a proof.preimage := by
  intro a voter
  obtain ⟨channel, env, rfl⟩ := msg
  obtain ⟨⟨author, signature⟩, mem, rfl⟩ := List.mem_map.mp voter
  have valid := List.all_eq_true.mp (ABAProof.verify_ok verified).2.2.2 _ mem
  exact AuthenticIn.claimed (allowed _ _ _ rfl) (List.mem_map.mpr ⟨_, mem, rfl⟩) valid

theorem trailInvariant [Crypto] [Bincode] (tolerant : sys.Tolerant) {input : Input} (allowed : sys.AllowedIn past input)
    (honest : sys.Honest key) (others : ∀ a, sys.Honest a → ∃ k, sys.Trail past a k (past a)) :
    Invariant (· = input) fun _ k l => sys.Trail past key k l where
  act := by
    intro s s' _ act h
    have le := act.frame.log
    have grown : ∀ e, e ∈ s.log → e ∈ s'.log := fun _ h => le.subset h
    cases act.abaCase with
    | act act => exact h.act act tolerant honest (h.voiced others) (h.heard allowed) (proved allowed)
    | nextEpoch core _ events =>
        rw [core]
        exact h.keep le events rfl (h.explained.nextEpoch.mono (.log le) grown)
    | other core events =>
        exact h.keep le events act.frame.name ((h.explained.agreement core).mono (.log le) grown)
  blind := fun _ _ h => h.keep (List.prefix_refl _) (fun _ _ h => h) rfl (h.explained.agreement rfl)
  makePayload := by
    intro v k l transactions h
    have le := List.prefix_append l [.signed (.payload (.new transactions k.name))]
    refine h.keep le (fun e about mem => ?_) rfl (h.explained.mono (.log le) fun _ h => le.subset h)
    refine (List.mem_append.mp mem).resolve_right fun new => ?_
    rw [List.mem_singleton.mp new] at about
    exact about
  storePayload := fun _ _ h => h.keep (List.prefix_refl _) (fun _ _ h => h) rfl (h.explained.agreement rfl)

theorem Trail.init (key : PublicKey) : sys.Trail (fun _ => []) key (sys.first key) [] where
  name := rfl
  explained := ⟨rfl, .init _ _ _ _, fun v mem => by simp [first, Core.new] at mem,
    fun late => absurd late (by decide : ¬ INIT_PHASE ≥ AUX_PHASE), List.nodup_nil,
    Nat.le_refl 1, fun e r coin cached => by simp [first, Core.new] at cached⟩
  authors := fun v ⟨_, _, mem⟩ => by simp at mem
  cast := fun v ⟨_, _, mem⟩ => by simp at mem
  accepts := fun _ _ _ mem => by simp at mem
  coinCalls := fun _ _ called => by simp at called
  proofCalls := fun _ _ called => by simp at called
  inputs := fun _ _ _ taken => by simp at taken
  outputs := fun _ _ _ output => by simp at output

theorem trail_nodeAt [Crypto] [Bincode] (tolerant : sys.Tolerant) {trace : Trace} (valid : sys.Valid trace) {key : PublicKey}
    (honest : sys.Honest key) : sys.Trail (sys.logs trace) key (sys.nodeAt trace key).core (sys.logs trace key) := by
  have sounds := sys.sound (I := fun past key _ k l => sys.Trail past key k l) (fun le h => h.later le)
    (fun honest allowed others => trailInvariant tolerant allowed honest fun a honest =>
      let ⟨_, _, trail⟩ := others a honest
      ⟨_, trail⟩)
    (fun key _ => Trail.init key) valid key honest
  obtain ⟨_, trail⟩ := sounds.2
  exact trail

theorem trails [Crypto] [Bincode] (tolerant : sys.Tolerant) {trace : Trace} (valid : sys.Valid trace) (key : PublicKey)
    (honest : sys.Honest key) : ∃ k, sys.Trail (sys.logs trace) key k (sys.logs trace key) :=
  ⟨_, trail_nodeAt tolerant valid honest⟩

/-! ## In the end -/

section
variable {trace : Trace}

/-- What honest nodes have logged in the end. -/
theorem logged_logs [Crypto] [Bincode] {key a : PublicKey} {e : Event} :
    Logged (sys.logs trace) key (sys.logs trace key) a e ↔ e ∈ sys.logs trace a := by
  constructor
  · rintro (mem | ⟨rfl, mem⟩) <;> exact mem
  · exact .inl

theorem isInput_logs [Crypto] [Bincode] {key : PublicKey} {e r : SeqNumber} {v : UInt64} :
    sys.IsInput (sys.logs trace) key (sys.logs trace key) e r v ↔
      ∃ a, sys.Honest a ∧ Event.abaInput e r v ∈ sys.logs trace a := by
  unfold IsInput
  simp only [logged_logs]

theorem voiced_logs [Crypto] [Bincode] (tolerant : sys.Tolerant) (valid : sys.Valid trace) {key : PublicKey} (honest : sys.Honest key) :
    sys.Voiced (sys.logs trace) key (sys.logs trace key) := by
  obtain ⟨_, trail⟩ := trails tolerant valid key honest
  exact trail.voiced (trails tolerant valid)

/-- An output is an input of the round it was found in. -/
theorem output_input [Crypto] [Bincode] (tolerant : sys.Tolerant) (valid : sys.Valid trace) {key : PublicKey}
    (honest : sys.Honest key) {e r : SeqNumber} {v : UInt64} (output : Event.abaOutput e r v ∈ sys.logs trace key) :
    ∃ a, sys.Honest a ∧ Event.abaInput e r v ∈ sys.logs trace a := by
  refine isInput_logs.mp (?_ : sys.IsInput (sys.logs trace) key (sys.logs trace key) e r v)
  have voiced := voiced_logs tolerant valid honest
  obtain ⟨_, trail⟩ := trails tolerant valid key honest
  rcases trail.outputs e r v output with ⟨core, coin, called, rfl, rfl, -, why⟩ |
    ⟨core, proof, coin, called, rfl, rfl, rfl, -⟩
  · have explained := (trail.coinCalls core coin called).1
    rcases why with single | ⟨-, proof, cached, rfl⟩
    · exact explained.bins v (by rw [single]; exact List.mem_singleton.mpr rfl)
    · exact explained.aux_input tolerant voiced cached
  · obtain ⟨explained, cached⟩ := trail.proofCalls core proof called
    exact explained.proof_input tolerant voiced cached

end

end System
end HotstuffDag
