import HotstuffDag.Proof.LaterStages
import HotstuffDag.Proof.RoundChange

/-! # Quorums of VAL messages

The certificates of a round share one place in a cache. A certificate is accepted if the one before it has been
taken from there when it comes, and if no round begins while it waits for a later epoch. -/

namespace HotstuffDag
open Library Library.Exec

/-- A quorum certificate of the first phase. -/
def ABAProof.IsStrong (proof : ABAProof) : Prop := proof.tag = false ∧ proof.phase = VAL_PHASE

instance : DecidablePred ABAProof.IsStrong := fun _ => inferInstanceAs (Decidable (_ ∧ _))

/-- The certificates of a round come one after the other, and before them the rounds of the epochs that end. -/
structure OneAtATime (l : List Event) : Prop where
  accepted : ∀ before p, before ++ [Event.assembledAba p] <+: l → p.IsStrong →
    ∀ q, Event.assembledAba q ∈ before → q.IsStrong → q.epoch = p.epoch → q.round = p.round → q.val ≠ p.val →
      Event.binValue q.epoch q.round q.val ∈ before
  rounds : ∀ before epoch round val, before ++ [Event.abaInput epoch round val] <+: l → round ≠ 1 →
    ∀ p, Event.assembledAba p ∈ before → p.IsStrong → p.epoch ≤ epoch

/-- The certificates to come are in the cache or have been accepted. -/
structure Remembered (final : List Event) (k : Core) (l : List Event) : Prop where
  round : 1 ≤ k.abaRound.toNat
  reached : ∀ e r v, Event.binValue e r v ∈ l → point e r ≤ k.now
  bins : ∀ v, Event.binValue k.epoch k.abaRound v ∈ l → v ∈ k.binValues
  certs : l <+: final → ∀ p, Event.assembledAba p ∈ l → p.IsStrong → k.now ≤ point p.epoch p.round →
    (∃ q, k.abaValPhaseCache2.get? (p.epoch, p.round) = some q ∧ q.val = p.val) ∨ Event.binValue p.epoch p.round p.val ∈ l

/-- A quorum certificate comes or is accepted. -/
def Event.ofCertificate : Event → Prop
  | .binValue _ _ _ => True
  | .assembledAba p => p.IsStrong
  | _ => False

theorem Event.aboutAba_of_certificate (e : Event) (h : e.ofCertificate) : e.aboutAba := by
  cases e <;> trivial

namespace Remembered
variable {got : ConsensusMessage → Prop} {final l l' : List Event} {k k' : Core}

theorem keep (h : Remembered final k l) (le : l <+: l') (events : ∀ e, e.ofCertificate → e ∈ l' → e ∈ l)
    (epoch : k'.epoch = k.epoch) (round : k'.abaRound = k.abaRound) (bins : k'.binValues = k.binValues)
    (cache : k'.abaValPhaseCache2 = k.abaValPhaseCache2) : Remembered final k' l' := by
  have now : k'.now = k.now := by rw [Core.now, epoch, round]; rfl
  refine ⟨by rw [round]; exact h.round, fun e r v mem => ?_, fun v mem => ?_, fun grown p mem strong ahead => ?_⟩
  · rw [now]
    exact h.reached e r v (events _ trivial mem)
  · rw [epoch, round] at mem
    rw [bins]
    exact h.bins v (events _ trivial mem)
  · rw [now] at ahead
    rw [cache]
    exact (h.certs (le.trans grown) p (events _ strong mem) strong ahead).imp_right fun accepted => le.subset accepted

/-- A certificate of a quorum comes into its place. -/
theorem kept_or_same (m : Map (SeqNumber × SeqNumber) ABAProof) (result : ConsensusResult (Option ABAProof)) :
    (∃ p, result = .ok (some p) ∧ p.tag = false ∧
      Core.keptProof (fun proof => !proof.tag) m result = m.insert (p.epoch, p.round) p) ∨
      Core.keptProof (fun proof => !proof.tag) m result = m ∧ ∀ p, result = .ok (some p) → p.tag ≠ false := by
  unfold Core.keptProof
  split
  · rename_i p
    cases tag : p.tag with
    | true =>
        refine .inr ⟨by simp [tag], fun q same => ?_⟩
        rw [← Option.some.inj (Except.ok.inj same), tag]
        decide
    | false => exact .inl ⟨p, rfl, tag, by simp [tag]⟩
  · rename_i none
    exact .inr ⟨rfl, fun p same => absurd same (none p)⟩

/-- It takes the place of a certificate that has been accepted. -/
theorem hearVal (h : Remembered final k l) (orderly : OneAtATime final) {v : ABAVal} (phase : v.phase = VAL_PHASE) :
    Remembered final (k.hearVal v) (l ++ k.abaEvents v) := by
  have accepted {e r : SeqNumber} {val : UInt64} (mem : Event.binValue e r val ∈ l ++ k.abaEvents v) : Event.binValue e r val ∈ l := by
    refine (List.mem_append.mp mem).resolve_right fun new => ?_
    obtain ⟨_, same, -⟩ := Core.mem_abaEvents new
    contradiction
  refine ⟨h.round, fun e r val mem => h.reached e r val (accepted mem), fun val mem => h.bins val (accepted mem), ?_⟩
  intro le p mem strong ahead
  have before := (List.prefix_append _ _).trans le
  have cache : (k.hearVal v).abaValPhaseCache2 =
    Core.keptProof (fun proof => !proof.tag) k.abaValPhaseCache2 (k.aggregator.addAbaVal v k.committee).1 := rfl
  rw [cache]
  rcases kept_or_same k.abaValPhaseCache2 (k.aggregator.addAbaVal v k.committee).1 with ⟨c, completed, tag, kept⟩ | ⟨kept, none⟩
  · rw [kept, Map.get?_insert]
    have events : k.abaEvents v = [.assembledAba c] := by
      unfold Core.abaEvents
      rw [completed]
    rw [events] at mem le
    have sort : c.phase = VAL_PHASE := ((Paced.append_spec _ v k.committee).2 c completed).2.2.trans phase
    rcases List.mem_append.mp mem with old | new
    · rcases h.certs before p old strong ahead with ⟨q, cached, same⟩ | taken
      · split
        · rename_i here
          by_cases val : p.val = c.val
          · exact .inl ⟨c, rfl, val.symm⟩
          · obtain ⟨epoch, round⟩ := Prod.mk.inj here
            have taken := orderly.accepted l c le ⟨tag, sort⟩ p old strong epoch.symm round.symm val
            exact .inr (List.mem_append_left _ taken)
        · exact .inl ⟨q, cached, same⟩
      · exact .inr (List.mem_append_left _ taken)
    · obtain rfl := Event.assembledAba.inj (List.mem_singleton.mp new)
      exact .inl ⟨p, if_pos rfl, rfl⟩
  · rw [kept]
    have old : Event.assembledAba p ∈ l := by
      refine (List.mem_append.mp mem).resolve_right fun new => ?_
      obtain ⟨c, same, completed⟩ := Core.mem_abaEvents new
      obtain rfl := Event.assembledAba.inj same
      exact none p completed strong.1
    exact (h.certs before p old strong ahead).imp_right fun taken => List.mem_append_left _ taken

theorem point_le {e r e' r' : SeqNumber} : point e r ≤ point e' r' ↔ e.toNat < e'.toNat ∨ e = e' ∧ r.toNat ≤ r'.toNat := by
  unfold point
  rw [Prod.Lex.toLex_le_toLex, UInt64.toNat_inj]

theorem nextRound [Crypto] (h : Remembered final k l) (orderly : OneAtATime final) (small : k.abaRound.toNat + 1 < 2 ^ 64)
    (val : UInt64) :
    Remembered final (k.nextRound val) (l ++ [.abaInput k.epoch (k.abaRound + 1) val] ++
      [.signed (.abaVal (.new k.name k.epoch (k.abaRound + 1) val VAL_PHASE))]) := by
  have old {e : Event} (about : e.ofCertificate) (mem : e ∈ l ++ [.abaInput k.epoch (k.abaRound + 1) val] ++
      [.signed (.abaVal (.new k.name k.epoch (k.abaRound + 1) val VAL_PHASE))]) : e ∈ l := by
    rw [List.append_assoc] at mem
    refine (List.mem_append.mp mem).resolve_right fun new => ?_
    rcases List.mem_cons.mp new with rfl | signed
    · exact about
    · rw [List.mem_singleton.mp signed] at about
      exact about
  have later : k.now < (k.nextRound val).now := point_lt_round small
  refine ⟨?_, fun e r v mem => ?_, fun v mem => ?_, fun le p mem strong ahead => ?_⟩
  · rw [Core.nextRound, toNat_succ small]
    exact Nat.le_add_left 1 _
  · exact (h.reached e r v (old trivial mem)).trans later.le
  · exact absurd (h.reached _ _ v (old trivial mem)) (not_le_of_gt later)
  · have grown := (List.prefix_append _ _).trans le
    have epochs : p.epoch ≤ k.epoch := by
      refine orderly.rounds l k.epoch (k.abaRound + 1) val grown (fun first => ?_) p (old strong mem) strong
      have same := congrArg UInt64.toNat first
      rw [toNat_succ small] at same
      change k.abaRound.toNat + 1 = 1 at same
      have positive := h.round
      omega
    rcases h.certs ((List.prefix_append _ _).trans grown) p (old strong mem) strong (later.le.trans ahead) with ⟨q, cached, same⟩ | taken
    · refine .inl ⟨q, ?_, same⟩
      rcases point_le.mp ahead with beyond | ⟨here, round⟩
      · rw [UInt64.le_iff_toNat_le] at epochs
        exact absurd beyond (Nat.not_lt.mpr epochs)
      · change (Core.retainRound k.abaValPhaseCache2 k.epoch (k.abaRound + 1)).get? _ = _
        rw [Core.retainRound, Map.get?_retain, if_pos (decide_eq_true ⟨here.symm, UInt64.le_iff_toNat_le.mpr round⟩)]
        exact cached
    · exact .inr (List.mem_append_left _ (List.mem_append_left _ taken))

theorem accept (h : Remembered final k l) (val : UInt64) :
    Remembered final { k with binValues := k.binValues.insert val } (l ++ [.binValue k.epoch k.abaRound val]) := by
  refine ⟨h.round, fun e r v mem => ?_, fun v mem => ?_, fun le p mem strong ahead => ?_⟩
  · rcases List.mem_append.mp mem with old | new
    · exact h.reached e r v old
    · obtain ⟨rfl, rfl, -⟩ := Event.binValue.inj (List.mem_singleton.mp new)
      exact le_refl k.now
  · rcases List.mem_append.mp mem with old | new
    · exact List.mem_insert_of_mem (h.bins v old)
    · obtain ⟨-, -, rfl⟩ := Event.binValue.inj (List.mem_singleton.mp new)
      exact List.mem_insert_self
  · have old : Event.assembledAba p ∈ l := by
      refine (List.mem_append.mp mem).resolve_right fun new => ?_
      cases List.mem_singleton.mp new
    exact (h.certs ((List.prefix_append _ _).trans le) p old strong ahead).imp_right fun taken => List.mem_append_left _ taken

theorem nextEpoch (h : Remembered final k l) (small : k.epoch.toNat + 1 < 2 ^ 64) : Remembered final k.nextEpoch l := by
  have later : k.now < k.nextEpoch.now := point_lt_epoch small k.abaRound 1
  refine ⟨Nat.le_refl 1, fun e r v mem => (h.reached e r v mem).trans later.le, fun v mem => ?_, fun le p mem strong ahead => ?_⟩
  · exact absurd (h.reached _ _ v mem) (not_le_of_gt later)
  · refine (h.certs le p mem strong (later.le.trans ahead)).imp_left fun ⟨q, cached, same⟩ => ⟨q, ?_, same⟩
    have kept : p.epoch ≥ k.epoch + 1 := by
      rcases point_le.mp ahead with beyond | ⟨here, -⟩
      · exact UInt64.le_iff_toNat_le.mpr beyond.le
      · exact UInt64.le_of_eq here
    change (k.abaValPhaseCache2.retain fun n => n.1 ≥ k.epoch + 1).get? _ = _
    rw [Map.get?_retain]
    exact (if_pos (decide_eq_true kept)).trans cached

theorem act [Crypto] (h : Remembered final k l) (orderly : OneAtATime final) (act : AbaAct got k l k' l') : Remembered final k' l' := by
  have grown := act.frame.log
  have single {e : Event} (other : ¬ e.ofCertificate) (e' : Event) (about : e'.ofCertificate) (mem : e' ∈ l ++ [e]) : e' ∈ l := by
    refine (List.mem_append.mp mem).resolve_right fun new => ?_
    rw [List.mem_singleton.mp new] at about
    exact other about
  cases act with
  | hearVal _ _ phase => exact h.hearVal orderly phase
  | hearAux _ _ phase =>
      refine h.keep grown (fun e about mem => (List.mem_append.mp mem).resolve_right fun new => ?_) rfl rfl rfl rfl
      obtain ⟨p, rfl, completed⟩ := Core.mem_abaEvents new
      have sort := ((Paced.append_spec _ _ _).2 p completed).2.2
      rw [phase, about.2] at sort
      exact absurd sort (by decide)
  | nextRound _ _ _ _ small => exact h.nextRound orderly small _
  | accept => exact h.accept _
  | quiet quiet =>
      refine h.keep grown (single fun about => ?_) rfl rfl rfl rfl
      unfold Event.quiet at quiet
      unfold Event.ofCertificate at about
      split at quiet <;> simp_all
  | hearShare =>
      refine h.keep grown (fun e about mem => (List.mem_append.mp mem).resolve_right fun new => ?_) rfl rfl rfl rfl
      unfold Core.coinEvents at new
      split at new
      · rw [List.mem_singleton.mp new] at about
        exact about
      · exact absurd new List.not_mem_nil
  | castInput | amplify | castAux | keepTc | takeInput | callCoin | callProof | outputCoin | outputProof | castProof | enterCoin =>
      exact h.keep grown (single id) rfl rfl rfl rfl
  | _ => exact h.keep grown (fun _ _ mem => mem) rfl rfl rfl rfl

end Remembered

/-- The certificates of a node that takes them one at a time. -/
theorem rememberedInvariant [Crypto] [Bincode] (ok : Input → Prop) (final : List Event) (orderly : OneAtATime final) :
    Invariant ok fun _ k l => Remembered final k l where
  act := by
    intro s s' _ act h
    have grown := act.frame.log
    cases act.abaCase with
    | act act => exact h.act orderly act
    | nextEpoch core small events =>
        rw [core]
        refine (h.nextEpoch small).keep grown (fun e about mem => events e ?_ mem) rfl rfl rfl rfl
        exact e.aboutAba_of_certificate about
    | other same events =>
        refine h.keep grown (fun e about mem => events e (e.aboutAba_of_certificate about) mem) ?_ ?_ ?_ ?_
        · exact Core.agreement_eq Core.epoch (fun _ => rfl) same
        · exact Core.agreement_eq Core.abaRound (fun _ => rfl) same
        · exact Core.agreement_eq Core.binValues (fun _ => rfl) same
        · exact Core.agreement_eq Core.abaValPhaseCache2 (fun _ => rfl) same
  blind := fun _ _ h => h.keep (List.prefix_refl _) (fun _ _ mem => mem) rfl rfl rfl rfl
  makePayload := fun _ h => by
    refine h.keep (List.prefix_append _ _) (fun e about mem => (List.mem_append.mp mem).resolve_right fun new => ?_) rfl rfl rfl rfl
    rw [List.mem_singleton.mp new] at about
    exact about
  storePayload := fun _ _ h => h.keep (List.prefix_refl _) (fun _ _ mem => mem) rfl rfl rfl rfl

/-! ## The stages that follow -/

namespace Core

/-- In its round the node keeps its certificates and its accepted values. -/
def Rests (s t : State) : Prop := s.core.abaRound.toNat ≤ t.core.abaRound.toNat ∧
  (t.core.abaRound = s.core.abaRound → t.core.epoch = s.core.epoch ∧
    t.core.abaValPhaseCache2 = s.core.abaValPhaseCache2 ∧ t.core.binValues = s.core.binValues)

instance : Std.Refl Rests := ⟨fun _ => ⟨Nat.le_refl _, fun _ => ⟨rfl, rfl, rfl⟩⟩⟩

instance : IsTrans State Rests where
  trans := fun s t u h h' => by
    refine ⟨h.1.trans h'.1, fun same => ?_⟩
    have middle : t.core.abaRound = s.core.abaRound := by
      rw [← UInt64.toNat_inj]
      have last := congrArg UInt64.toNat same
      have first := h.1
      have second := h'.1
      omega
    obtain ⟨epoch, cache, bins⟩ := h.2 middle
    obtain ⟨epoch', cache', bins'⟩ := h'.2 (same.trans middle.symm)
    exact ⟨epoch'.trans epoch, cache'.trans cache, bins'.trans bins⟩

theorem Rests.still {s t : State} (epoch : t.core.epoch = s.core.epoch) (round : t.core.abaRound = s.core.abaRound)
    (cache : t.core.abaValPhaseCache2 = s.core.abaValPhaseCache2) (bins : t.core.binValues = s.core.binValues) : Rests s t :=
  ⟨by rw [round], fun _ => ⟨epoch, cache, bins⟩⟩

variable {s : State}

theorem rests_processCachedAux [Crypto] : Leads Rests processCachedAux s fun _ _ => True := by
  refine leads_getCore (Leads.ite (fun _ => passes_withCached fun proof => ?_) fun _ => Leads.pure trivial)
  refine leads_getCore (leads_getCore (Leads.ite (fun _ => Leads.pure trivial) fun _ => ?_))
  refine leads_modifyCore (.still rfl rfl rfl rfl) (leads_transmit (fun _ => .still rfl rfl rfl rfl) fun addresses => ?_)
  exact leads_deal fun _ _ => .still rfl rfl rfl rfl

theorem rests_advanceAbaRound [Crypto] (s : State) (val : UInt64) : Leads Rests (advanceAbaRound val) s fun _ _ => True := by
  refine Leads.of_final ?_
  by_cases small : s.core.abaRound.toNat + 1 < 2 ^ 64
  · have round : (final (advanceAbaRound val) s).core.abaRound = s.core.abaRound + 1 := (fills_nextRound val small).round
    have next := congrArg UInt64.toNat round
    rw [toNat_succ small] at next
    refine ⟨by omega, fun same => ?_⟩
    rw [same] at next
    omega
  · rw [advanceAbaRound_stuck val small]
    exact Std.Refl.refl s

theorem passes_rests [Crypto] : Passes Rests where
  event := fun _ _ _ => .still rfl rfl rfl rfl
  output := fun _ _ => .still rfl rfl rfl rfl
  castProof := fun _ => .still rfl rfl rfl rfl
  advance := rests_advanceAbaRound

/-- The stages after the second. -/
def laterStages [Crypto] : M Unit := do
  processCachedAux
  processCoinPhase
  processCachedProof

theorem rests_laterStages [Crypto] : Leads Rests laterStages s fun _ _ => True := by
  refine Leads.bind rests_processCachedAux fun _ _ _ _ => ?_
  exact Leads.bind (passes_processCoinPhase passes_rests) fun _ _ _ _ => passes_processCachedProof passes_rests

end Core

/-! ## Runs -/

theorem AbaAct.begun [Crypto] {got : ConsensusMessage → Prop} {k k' : Core} {l l' : List Event} (act : AbaAct got k l k' l')
    (begun : k.phase ≥ VAL_PHASE) : k'.phase ≥ VAL_PHASE := by
  cases act with
  | nextRound | enterVal => exact UInt8.le_refl VAL_PHASE
  | enterAux => exact (by decide : AUX_PHASE ≥ VAL_PHASE)
  | enterCoin => exact (by decide : COIN_PHASE ≥ VAL_PHASE)
  | _ => exact begun

/-- Rounds only go on. -/
theorem AbaAct.round_mono [Crypto] {got : ConsensusMessage → Prop} {k k' : Core} {l l' : List Event} (act : AbaAct got k l k' l') :
    k.abaRound.toNat ≤ k'.abaRound.toNat := by
  cases act with
  | nextRound _ _ _ _ small =>
      rw [Core.nextRound, toNat_succ small]
      exact Nat.le_succ _
  | _ => exact Nat.le_refl _

/-- The second stage takes the certificate of the round, and the later ones leave it alone. -/
theorem Core.ends_taken [Crypto] {s : State} (begun : s.core.phase ≥ VAL_PHASE) : Ends Core.processAbaPhase s
    (fun _ t => ∃ u, AbaEvolves (fun _ => True) s u ∧ u.core.Taken ∧ Core.Rests u t) fun _ _ => True := by
  have first : Leads (AbaEvolves fun _ => True) Core.processCachedTc s fun _ _ => True := Core.leads_processCachedTc
  refine (first.ends.weaken (fun _ _ h => h) fun _ _ _ => trivial).bind fun _ s₁ ⟨reach, _⟩ => ?_
  have second : Leads (AbaEvolves fun _ => True) Core.processValPhase s₁ fun _ u => s₁.core.phase ≥ VAL_PHASE → u.core.Taken :=
    Core.leads_processValPhase
  refine (second.ends.weaken (fun _ _ h => h) fun _ _ _ => trivial).bind fun _ u ⟨reach', taken⟩ => ?_
  have begun₁ : s₁.core.phase ≥ VAL_PHASE := reach.keeps (P := fun k _ => k.phase ≥ VAL_PHASE) AbaAct.begun begun
  have later : Leads Core.Rests Core.laterStages u fun _ _ => True := Core.rests_laterStages
  exact later.ends.weaken (fun _ t ⟨rests, _⟩ => ⟨u, IsTrans.trans _ _ _ reach reach', taken begun₁, rests⟩) fun _ _ _ => trivial

/-- After a completed run of the stages, each value with a quorum certificate of the round has been accepted, or the
round has ended. -/
theorem val_quorums_accepted [Crypto] [Bincode] (name : PublicKey) (committee : Committee) (parameters : Parameters)
    (store : Store) (env env' : Env)
    (inputs : List Input) (channel : Channel) (message : ConsensusMessage) (s t : State)
    (staged : ((Node.start (Core.new name committee parameters store) env).run inputs).staged channel message env' = some s)
    (begun : s.core.phase ≥ VAL_PHASE) (completed : Core.processAbaPhase s = .ok () t) (orderly : OneAtATime t.log)
    (p : ABAProof) (assembled : Event.assembledAba p ∈ t.log) (strong : p.IsStrong) (epoch : p.epoch = s.core.epoch)
    (round : p.round = s.core.abaRound) : p.val ∈ t.core.binValues ∨ t.core.abaRound ≠ s.core.abaRound := by
  have inv := rememberedInvariant (fun _ => True) t.log orderly
  have start : (Node.start (Core.new name committee parameters store) env).Sound fun _ k l => Remembered t.log k l :=
    inv.init ⟨Nat.le_refl 1, nofun, nofun, nofun⟩
  have remembered : Remembered t.log s.core s.log := (inv.run (fun _ _ => trivial) start).staged inv trivial staged
  have whole : Leads (AbaEvolves fun _ => True) Core.processAbaPhase s fun _ _ => True := Core.leads_processAbaPhase
  have split := Core.ends_taken begun
  unfold Leads at whole
  unfold Ends at split
  rw [completed] at whole split
  obtain ⟨reach, -⟩ := whole
  obtain ⟨u, before, taken, rests⟩ := split
  have final : Remembered t.log t.core t.log :=
    reach.keeps (P := fun k l => Remembered t.log k l) (fun act h => h.act orderly act) remembered
  rw [or_iff_not_imp_right, not_not]
  intro same
  have along : s.core.abaRound.toNat ≤ u.core.abaRound.toNat :=
    before.keeps (P := fun k _ => s.core.abaRound.toNat ≤ k.abaRound.toNat) (fun act h => h.trans act.round_mono) (Nat.le_refl _)
  have stayed : u.core.abaRound = s.core.abaRound := by
    rw [← UInt64.toNat_inj]
    have last := congrArg UInt64.toNat same
    have beyond := rests.1
    omega
  obtain ⟨_, cache, bins⟩ := rests.2 (same.trans stayed.symm)
  have here : t.core.epoch = s.core.epoch := reach.frame.epoch
  have now : t.core.now ≤ point p.epoch p.round := by
    rw [epoch, round, Core.now, here, same]
  rcases final.certs (List.prefix_refl _) p assembled strong now with ⟨q, cached, val⟩ | logged
  · rw [cache, epoch, round, ← before.frame.epoch, ← stayed] at cached
    rw [bins, ← val]
    exact taken q cached
  · rw [epoch, round, ← here, ← same] at logged
    exact final.bins _ logged

namespace Sample

/-- The states before and after the stages, if the stages run and return. -/
def stagesOf (n : Node) (channel : Channel) (message : ConsensusMessage) : Option (State × State) :=
  (n.staged channel message env).bind fun s =>
    match Core.processAbaPhase s with
    | .ok _ t => some (s, t)
    | .error _ _ => none

theorem stagesOf_eq {n : Node} {channel : Channel} {message : ConsensusMessage} {s t : State}
    (h : stagesOf n channel message = some (s, t)) :
    n.staged channel message env = some s ∧ Core.processAbaPhase s = .ok () t := by
  obtain ⟨s', staged, ran⟩ := Option.bind_eq_some_iff.mp h
  split at ran
  · rename_i t' completed
    obtain ⟨rfl, rfl⟩ := Prod.mk.inj (Option.some.inj ran)
    exact ⟨staged, completed⟩
  · contradiction

def certificates (l : List Event) : List ABAProof :=
  l.filterMap fun
    | .assembledAba p => some p
    | _ => none

theorem mem_certificates {l : List Event} {p : ABAProof} : p ∈ certificates l ↔ Event.assembledAba p ∈ l := by
  constructor
  · intro h
    obtain ⟨e, mem, found⟩ := List.mem_filterMap.mp h
    split at found
    · rw [← Option.some.inj found]
      exact mem
    · contradiction
  · exact fun h => List.mem_filterMap.mpr ⟨_, h, rfl⟩

/-- What the order of the certificates asks of one event. -/
def inOrder (before : List Event) : Event → Prop
  | .assembledAba p => p.IsStrong → ∀ q ∈ certificates before, q.IsStrong → q.epoch = p.epoch → q.round = p.round →
      q.val ≠ p.val → Event.binValue q.epoch q.round q.val ∈ before
  | .abaInput epoch round _ => round ≠ 1 → ∀ p ∈ certificates before, p.IsStrong → p.epoch ≤ epoch
  | _ => True

instance (before : List Event) : DecidablePred (inOrder before)
  | .assembledAba _ => inferInstanceAs (Decidable (_ → _))
  | .abaInput _ _ _ => inferInstanceAs (Decidable (_ → _))
  | .transmit _ _ _ | .mempool _ | .payloadStatus _ _ | .request _ _ _ | .signed _ | .process _ | .voted _ _ | .assembled _ _
  | .twoChain _ _ _ _ _ | .commitCall _ _ _ | .commit _ | .savedTc _ | .binValue _ _ _ | .abaOutput _ _ _ | .coin _ _ _
  | .coinPhase _ | .coinCall _ _ | .proofCall _ _ | .epochEnd _ _ _ => inferInstanceAs (Decidable True)

theorem oneAtATime_of {l : List Event} (each : ∀ i < l.length, ∀ e ∈ l[i]?, inOrder (l.take i) e) : OneAtATime l := by
  have at' {before : List Event} {e : Event} (le : before ++ [e] <+: l) : inOrder before e := by
    obtain ⟨rest, rfl⟩ := le
    have here := each before.length (by simp) e (by simp)
    rw [List.append_assoc, List.take_left] at here
    exact here
  refine ⟨fun before p le strong q mem => at' le strong q (mem_certificates.mpr mem), ?_⟩
  exact fun before epoch round val le later p mem => at' le later p (mem_certificates.mpr mem)

/-- Two values of the first round reach a quorum one after the other. -/
theorem two_quorums_accepted : ∃ s t, stagesOf ((start 1).run (inputsOf 1 (bit.drop 14))) .smvba
      (.abaVal (.new (key 2) 0 1 3 AUX_PHASE)) = some (s, t) ∧ s.core.abaRound = t.core.abaRound ∧
    (∃ p ∈ certificates t.log, p.val = 3 ∧ p.val ∈ t.core.binValues) ∧
    ∃ p ∈ certificates t.log, p.val = 5 ∧ p.val ∈ t.core.binValues := by
  have reached : ∃ x ∈ stagesOf ((start 1).run (inputsOf 1 (bit.drop 14))) .smvba (.abaVal (.new (key 2) 0 1 3 AUX_PHASE)),
      x.1.core.phase ≥ VAL_PHASE ∧ (∀ i < x.2.log.length, ∀ e ∈ x.2.log[i]?, inOrder (x.2.log.take i) e) ∧
      x.2.core.abaRound = x.1.core.abaRound ∧
      (∃ p ∈ certificates x.2.log, p.IsStrong ∧ p.epoch = x.1.core.epoch ∧ p.round = x.1.core.abaRound ∧ p.val = 3) ∧
      ∃ p ∈ certificates x.2.log, p.IsStrong ∧ p.epoch = x.1.core.epoch ∧ p.round = x.1.core.abaRound ∧ p.val = 5 := by
    decide +kernel
  obtain ⟨⟨s, t⟩, found, begun, orderly, round, three, five⟩ := reached
  obtain ⟨staged, completed⟩ := stagesOf_eq found
  have accepted {val : UInt64} (quorum : ∃ p ∈ certificates t.log, p.IsStrong ∧ p.epoch = s.core.epoch ∧
      p.round = s.core.abaRound ∧ p.val = val) : ∃ p ∈ certificates t.log, p.val = val ∧ p.val ∈ t.core.binValues := by
    obtain ⟨p, assembled, strong, epoch, here, same⟩ := quorum
    refine ⟨p, assembled, same, ?_⟩
    exact (val_quorums_accepted (key 1) four ⟨500⟩ Map.empty env env _ _ _ s t staged begun completed (oneAtATime_of orderly) p
      (mem_certificates.mp assembled) strong epoch here).resolve_right fun other => other round
  exact ⟨s, t, found, round.symm, accepted three, accepted five⟩

/-- The quorums for 3 and 5 come before the timeout certificate. -/
def earlyQuorums : List Input :=
  [val 2 1 3, val 3 1 3, val 4 1 3, val 2 1 5, val 3 1 5, val 4 1 5, tc 3, share 4 1]

theorem quorum_forgotten : ∃ s t, ((start 1).run earlyQuorums).staged .smvba (.abaCoinShare (.new 0 1 (key 3))) env = some s ∧
    s.core.phase ≥ VAL_PHASE ∧ Core.processAbaPhase s = .ok () t ∧ t.core.abaRound = s.core.abaRound ∧
    ∃ p, Event.assembledAba p ∈ t.log ∧ p.IsStrong ∧ p.epoch = s.core.epoch ∧ p.round = s.core.abaRound ∧
      p.val ∉ t.core.binValues := by
  have reached : ∃ x ∈ stagesOf ((start 1).run earlyQuorums) .smvba (.abaCoinShare (.new 0 1 (key 3))),
      x.1.core.phase ≥ VAL_PHASE ∧ x.2.core.abaRound = x.1.core.abaRound ∧ ∃ p ∈ certificates x.2.log, p.IsStrong ∧
        p.epoch = x.1.core.epoch ∧ p.round = x.1.core.abaRound ∧ p.val ∉ x.2.core.binValues := by
    decide +kernel
  obtain ⟨⟨s, t⟩, found, begun, round, p, assembled, rest⟩ := reached
  obtain ⟨staged, completed⟩ := stagesOf_eq found
  exact ⟨s, t, staged, begun, completed, round, p, mem_certificates.mp assembled, rest⟩

end Sample
end HotstuffDag
