import HotstuffDag.Core.Run
import HotstuffDag.Proof.Rules

/-! # How handlers fail

A handler keeps a property of states on every exit, and fails only in ways that are allowed. Most handlers
panic in no state. The others unwrap what they look up: those are left to the modules that know why it is
there. -/

namespace HotstuffDag
open Library Library.Exec

/-- From a state with the property the handler ends in one, and it fails only as allowed. -/
def Calm {α : Type} (E : Exn → Prop) (K : State → Prop) (x : M α) : Prop :=
  ∀ s, K s → Ends x s (fun _ t => K t) fun e t => E e ∧ K t

/-- All but panics and heights that overflow. -/
class Lenient (E : Exn → Prop) : Prop where
  error : ∀ e, E (.error e)
  outOfFuel : E .outOfFuel
  overflow : ∀ counter, counter ≠ .height → E (.overflow counter)

/-- The events that show what a node does in a round of the agreement. -/
def Event.ofRound : Event → Prop
  | .transmit _ (.abaVal _) _ | .transmit _ (.abaCoinShare _) _ | .abaInput _ _ _ => True
  | _ => False

/-- The property does not depend on what the environment answers or on other events. -/
class Deaf (K : State → Prop) : Prop where
  env : ∀ {s} env, K s → K { s with env := env }
  event : ∀ {s} e, ¬ e.ofRound → K s → K { s with log := s.log ++ [e] }

/-- Where a stored value panics when it is read, the handler may panic. -/
class Readable [Bincode] (E : Exn → Prop) (K : State → Prop) : Prop where
  panics : ∀ {s digest value}, K s → s.core.store.get? digest = some value →
    Synchronizer.decodeBlock value = .error .panic → E .panic

theorem Readable.of_panic [Bincode] {E : Exn → Prop} {K : State → Prop} (panics : E .panic) : Readable E K := ⟨fun _ _ _ => panics⟩

instance : Deaf fun _ => True := ⟨fun _ _ => trivial, fun _ _ _ => trivial⟩

section
variable {α β : Type} {E : Exn → Prop} {K : State → Prop} {x y : M α}

@[simp] theorem calm_bind {f : α → M β} (hx : Calm E K x) (hf : ∀ a, Calm E K (f a)) : Calm E K (x >>= f) :=
  fun s holds => (hx s holds).bind fun a t kept => hf a t kept

@[simp] theorem calm_map {x : M α} (g : α → β) (hx : Calm E K x) : Calm E K (g <$> x) := by
  rw [map_eq_pure_bind]
  exact calm_bind hx fun a _ holds => holds

@[simp] theorem calm_ite {c : Prop} [Decidable c] (hx : Calm E K x) (hy : Calm E K y) :
    Calm E K (if c then x else y) := by
  split
  · exact hx
  · exact hy

@[simp] theorem calm_pure (a : α) : Calm E K (pure a : M α) := fun _ holds => holds

@[simp] theorem calm_get : Calm E K (get : M State) := fun _ holds => holds

@[simp] theorem calm_getCore : Calm E K getCore := fun _ holds => holds

@[simp] theorem calm_getChain : Calm E K getChain := fun _ holds => holds

theorem calm_throw {e : Exn} (allowed : E e) : Calm E K (throw e : M α) := fun _ holds => Ends.throw ⟨allowed, holds⟩

theorem calm_emit {e : Event} (h : ∀ s, K s → K { s with log := s.log ++ [e] }) : Calm E K (emit e) := fun s => h s

theorem calm_modifyChain {g : Chain → Chain} (h : ∀ s, K s → K { s with chain := g s.chain }) :
    Calm E K (modifyChain g) := fun s => h s

theorem calm_modifyCore {g : Core → Core} (h : ∀ s, K s → K { s with core := g s.core }) : Calm E K (modifyCore g) :=
  fun s => h s

theorem calm_unwrap {option : Option α} (found : E .panic ∨ option.isSome) : Calm E K (unwrap option) := by
  cases option with
  | some a => exact calm_pure a
  | none => exact calm_throw (found.resolve_right (by simp))

theorem calm_checkedAdd {counter : Counter} {a b : SeqNumber} (small : E (.overflow counter) ∨ a.toNat + b.toNat < 2 ^ 64) :
    Calm E K (checkedAdd counter a b) := by
  unfold checkedAdd
  split
  · exact calm_pure _
  · rename_i large
    exact calm_throw (small.resolve_right large)

/-- Nothing is asked of the states. -/
theorem calm_any {x : M α} : Calm (fun _ => True) (fun _ => True) x := by
  intro s _
  unfold Ends
  split
  · trivial
  · exact ⟨trivial, trivial⟩

variable [Lenient E]

@[simp] theorem calm_error (e : ConsensusError) : Calm E K (error e : M α) := calm_throw (Lenient.error e)

@[simp] theorem calm_outOfFuel : Calm E K (throw .outOfFuel : M α) := calm_throw Lenient.outOfFuel

@[simp] theorem calm_liftResult (result : ConsensusResult α) : Calm E K (liftResult result) := by
  cases result with
  | ok a => exact calm_pure a
  | error e => exact calm_error e

/-! ## Messages and blocks -/

variable [Deaf K]

section
omit [Lenient E]

@[simp] theorem calm_env (g : State → Env) : Calm E K (modify fun s => { s with env := g s } : M Unit) :=
  fun s holds => Deaf.env (g s) holds

theorem calm_log {e : Event} (other : ¬ e.ofRound := by exact id) : Calm E K (emit e) := calm_emit fun _ => Deaf.event e other

end

omit [Deaf K] in
theorem calm_send {message : ConsensusMessage} {dest : Option PublicKey} {tag : UInt8}
    (h : ∀ addresses s, K s → K { s with log := s.log ++ [.transmit tag message addresses] }) :
    Calm E K (Synchronizer.transmit message dest tag) := by
  have sent (addresses : List SocketAddr) : Calm E K (emit (.transmit tag message addresses)) := calm_emit (h addresses)
  have sentTo (result : ConsensusResult SocketAddr) : Calm E K (do
      let addresses ← pure [← liftResult result]
      emit (.transmit tag message addresses)) :=
    calm_bind (calm_liftResult _) fun address => calm_bind (calm_pure [address]) sent
  unfold Synchronizer.transmit
  refine calm_bind calm_getCore fun core => ?_
  cases dest with
  | none => exact calm_ite (calm_bind (calm_pure _) sent) (calm_bind (calm_pure _) sent)
  | some name => exact calm_ite (sentTo _) (sentTo _)

theorem calm_transmit {message : ConsensusMessage} {dest : Option PublicKey} {tag : UInt8}
    (other : ∀ addresses, ¬ (Event.transmit tag message addresses).ofRound := by exact fun _ => id) :
    Calm E K (Synchronizer.transmit message dest tag) :=
  calm_send fun addresses _ => Deaf.event _ (other addresses)

@[simp] theorem calm_read (digest : Digest) : Calm E K (Synchronizer.read digest) := by
  unfold Synchronizer.read
  refine calm_bind calm_get fun s => ?_
  split
  · exact calm_pure _
  · exact calm_bind (calm_env _) fun _ => calm_ite (calm_error _) (calm_bind calm_get fun _ => calm_pure _)

@[simp] theorem calm_getBlock [Bincode] [Readable E K] (author : PublicKey) (digest : Digest) (block : Option Block) :
    Calm E K (Synchronizer.getBlock author digest block) := by
  intro s holds
  rw [← bind_pure (Synchronizer.getBlock author digest block)]
  apply ends_getBlock
  · exact fun e env => ⟨Lenient.error e, Deaf.env env holds⟩
  · exact fun value env stored panics => ⟨Readable.panics holds stored panics, Deaf.env env holds⟩
  · exact fun env b _ => Ends.pure (Deaf.env env holds)
  · exact fun env _ => Ends.pure (Deaf.event _ id (Deaf.env env holds))

@[simp] theorem calm_getParentBlock [Bincode] [Readable E K] (block : Block) : Calm E K (Synchronizer.getParentBlock block) :=
  calm_getBlock _ _ _

@[simp] theorem calm_getAncestors [Bincode] [Readable E K] (block : Block) : Calm E K (Synchronizer.getAncestors block) := by
  unfold Synchronizer.getAncestors
  refine calm_bind (calm_getParentBlock _) fun option => ?_
  cases option with
  | none => exact calm_pure _
  | some b1 =>
      refine calm_bind (calm_getParentBlock _) fun option => ?_
      cases option <;> simp

end

namespace Core
variable {E : Exn → Prop} {K : State → Prop} [Lenient E] [Deaf K]

section
omit [Lenient E]

@[simp] theorem calm_sign (object : Signed) : Calm E K (sign object) := calm_log

@[simp] theorem calm_getPayload : Calm E K getPayload := by
  unfold getPayload
  refine calm_bind calm_get fun s => calm_bind calm_log fun _ => ?_
  split
  · exact calm_pure _
  · exact calm_bind (calm_env _) fun _ => calm_pure _

end

@[simp] theorem calm_verifyPayload (block : Block) : Calm E K (verifyPayload block) := by
  unfold verifyPayload
  refine calm_bind calm_log fun _ => calm_bind calm_get fun s => calm_bind calm_log fun _ => ?_
  cases s.env.status <;> simp

theorem calm_handleSyncRequest [Bincode] [Readable E K] (digest : Digest) (sender : PublicKey) :
    Calm E K (handleSyncRequest digest sender) := by
  unfold handleSyncRequest
  intro s holds
  refine ends_read (fun e env => ⟨Lenient.error e, Deaf.env env holds⟩) fun env => ?_
  have kept := Deaf.env env holds
  cases stored : s.core.store.get? digest with
  | none => exact Ends.pure kept
  | some value =>
      refine ends_readBlock (fun _ e => ⟨Lenient.error e, kept⟩) (fun panics => ?_) fun block _ => calm_transmit (fun _ => id) _ kept
      exact ⟨Readable.panics holds stored panics, kept⟩

omit [Lenient E] in
/-- The blocks leave in order. -/
@[simp] theorem calm_deliver (toCommit : List Block) : Calm E K (deliver toCommit) := by
  induction toCommit with
  | nil => exact calm_pure _
  | cons block rest ih =>
      have sent : Calm E K (do emit (.commit block); deliver rest) := calm_bind calm_log fun _ => ih
      unfold deliver
      split
      · exact calm_bind calm_log fun _ => sent
      · exact sent

/-! ## The agreement -/

section
omit [Lenient E]

@[simp] theorem calm_setCore (g : Core → Core) : Calm E (fun _ => True) (modifyCore g) := calm_modifyCore fun _ _ => trivial

@[simp] theorem calm_setLog (e : Event) : Calm E (fun _ => True) (emit e) := calm_emit fun _ _ => trivial

end

@[simp] theorem calm_cast (message : ConsensusMessage) (dest : Option PublicKey) (tag : UInt8) :
    Calm E (fun _ => True) (Synchronizer.transmit message dest tag) :=
  calm_send fun _ _ _ => trivial

omit [Lenient E] in
theorem calm_saveTc (tc : TC) : Calm E (fun _ => True) (saveTc tc) := calm_bind (calm_setCore _) fun _ => calm_setLog _

variable [Crypto]

theorem calm_handleTc (tc : TC) : Calm E (fun _ => True) (handleTc tc) := by
  unfold handleTc
  refine calm_bind calm_getCore fun core => calm_ite (calm_pure _) ?_
  exact calm_bind (calm_liftResult _) fun _ => calm_saveTc tc

omit [Crypto] in
@[simp] theorem calm_addAbaVal (abaVal : ABAVal) : Calm E (fun _ => True) (addAbaVal abaVal) := by
  unfold addAbaVal
  exact calm_bind calm_getCore fun core => calm_bind (calm_setCore _) fun _ => calm_liftResult _

theorem calm_handleAbaVal (abaVal : ABAVal) : Calm E (fun _ => True) (handleAbaVal abaVal) := by
  unfold handleAbaVal
  refine calm_bind calm_getCore fun core => calm_ite (calm_pure _) (calm_ite ?_ (calm_ite ?_ (calm_error _)))
  · refine calm_bind (calm_liftResult _) fun _ => calm_bind (calm_addAbaVal abaVal) fun option => ?_
    cases option with
    | none => exact calm_pure _
    | some proof => exact calm_bind (calm_setLog _) fun _ => calm_ite (calm_setCore _) (calm_setCore _)
  · refine calm_bind (calm_liftResult _) fun _ => calm_bind (calm_setCore _) fun _ => ?_
    refine calm_bind (calm_addAbaVal abaVal) fun option => ?_
    cases option with
    | none => exact calm_pure _
    | some proof => exact calm_bind (calm_setLog _) fun _ => calm_setCore _

theorem calm_handleCoinShare (share : RandomnessShare) : Calm E (fun _ => True) (handleCoinShare share) := by
  have add : Calm E (fun _ => True) (addAbaRandom share) := by
    exact calm_bind calm_getCore fun core => calm_bind (calm_setCore _) fun _ => calm_liftResult _
  unfold handleCoinShare
  refine calm_bind calm_getCore fun core => calm_ite (calm_pure _) ?_
  refine calm_bind (calm_liftResult _) fun _ => calm_bind add fun option => ?_
  cases option with
  | none => exact calm_pure _
  | some coin => exact calm_bind (calm_setCore _) fun _ => calm_setLog _

theorem calm_handleAbaProof (proof : ABAProof) : Calm E (fun _ => True) (handleAbaProof proof) := by
  unfold handleAbaProof
  refine calm_bind calm_getCore fun core => calm_ite (calm_pure _) ?_
  exact calm_bind (calm_liftResult _) fun _ => calm_setCore _

theorem calm_broadcastAbaVal (abaVal : ABAVal) : Calm E (fun _ => True) (broadcastAbaVal abaVal) :=
  calm_bind (calm_cast _ _ _) fun _ => calm_handleAbaVal abaVal

omit [Lenient E] in
theorem calm_signAbaVal (epoch round : SeqNumber) (val : UInt64) (phase : UInt8) :
    Calm E K (signAbaVal epoch round val phase) :=
  calm_bind calm_getCore fun _ => calm_bind (calm_sign _) fun _ => calm_pure _

omit [Crypto] [Lenient E] in
theorem calm_setInput (round : SeqNumber) (val : UInt64) : Calm E (fun _ => True) (setInput round val) :=
  calm_bind (calm_setCore _) fun _ => calm_bind calm_getCore fun _ => calm_setLog _

theorem calm_processTc {tc : TC} (heard : E .panic ∨ tc.votes ≠ []) : Calm E (fun _ => True) (processTc tc) := by
  have stated : E .panic ∨ tc.highQcRounds.max?.isSome := by
    refine heard.imp_right fun heard => ?_
    rw [List.isSome_max?_iff]
    exact fun empty => heard (List.map_eq_nil_iff.mp empty)
  unfold processTc
  refine calm_bind (calm_cast _ _ _) fun _ => calm_bind (calm_unwrap stated) fun input => ?_
  refine calm_bind (calm_setInput _ _) fun _ => calm_bind calm_getCore fun core => ?_
  exact calm_bind (calm_signAbaVal _ _ _ _) fun abaVal => calm_broadcastAbaVal abaVal

theorem calm_processValPhase2 (proof : ABAProof) : Calm E (fun _ => True) (processValPhase2 proof) := by
  have insert : Calm E (fun _ => True) (insertBinValue proof.val) :=
    calm_bind (calm_setCore _) fun _ => calm_bind calm_getCore fun _ => calm_setLog _
  unfold processValPhase2
  refine calm_bind calm_getCore fun core => calm_ite ?_ insert
  refine calm_bind (calm_signAbaVal _ _ _ _) fun abaVal => calm_bind calm_getCore fun core => ?_
  refine calm_ite (calm_bind (calm_setCore _) fun _ => ?_) insert
  exact calm_bind (calm_broadcastAbaVal abaVal) fun _ => insert

theorem calm_processAuxPhase (epoch round : SeqNumber) : Calm E (fun _ => True) (processAuxPhase epoch round) := by
  unfold processAuxPhase
  refine calm_bind calm_getCore fun core => calm_bind calm_getCore fun core => calm_ite (calm_pure _) ?_
  refine calm_bind (calm_setCore _) fun _ => calm_bind (calm_cast _ _ _) fun _ => ?_
  exact calm_handleCoinShare _

theorem calm_advanceAbaRound (val : UInt64) : Calm E (fun _ => True) (advanceAbaRound val) := by
  have next (round : SeqNumber) : Calm E (fun _ => True) (checkedAdd .round round 1) :=
    calm_checkedAdd (.inl (Lenient.overflow .round (by decide)))
  unfold advanceAbaRound
  refine calm_bind calm_getCore fun core => calm_bind (next _) fun round => ?_
  refine calm_bind (calm_setCore _) fun _ => calm_bind (calm_setInput _ _) fun _ => ?_
  refine calm_bind calm_getCore fun core => calm_bind (calm_signAbaVal _ _ _ _) fun abaVal => ?_
  exact calm_bind (calm_setCore _) fun _ => calm_broadcastAbaVal abaVal

omit [Crypto] [Lenient E] in
theorem calm_setOutput (val : UInt64) : Calm E (fun _ => True) (setOutput val) :=
  calm_bind (calm_setCore _) fun _ => calm_bind calm_getCore fun _ => calm_setLog _

omit [Crypto] in
theorem calm_broadcastAuxProof (proof : ABAProof) : Calm E (fun _ => True) (broadcastAuxProof proof) := by
  unfold broadcastAuxProof
  refine calm_bind calm_getCore fun core => calm_ite (calm_pure _) ?_
  exact calm_bind (calm_setCore _) fun _ => calm_cast _ _ _

omit [Crypto] [Lenient E] in
theorem calm_processAbaProof (proof : ABAProof) : Calm E (fun _ => True) (processAbaProof proof) := by
  unfold processAbaProof
  refine calm_bind calm_getCore fun core => calm_bind (calm_setLog _) fun _ => ?_
  split
  · exact calm_pure _
  · exact calm_ite (calm_setOutput _) (calm_pure _)

omit [Crypto] [Lenient E] [Deaf K] in
theorem calm_withCached {γ : Type} (cache : Core → Map (SeqNumber × SeqNumber) γ) {handler : γ → M Unit}
    (run : ∀ a, Calm E K (handler a)) : Calm E K (withCached cache handler) := by
  unfold withCached
  refine calm_bind calm_getCore fun core => ?_
  split
  · exact calm_pure _
  · exact run _

omit [Crypto] [Lenient E] in
theorem calm_updatePhase : Calm E (fun _ => True) updatePhase := by
  have num : Calm E (fun _ => True) auxValueNum :=
    calm_bind (calm_setCore _) fun _ => calm_bind calm_getCore fun _ => calm_pure _
  unfold updatePhase enterValPhase enterAuxPhase enterCoinPhase
  refine calm_bind (calm_bind calm_getCore fun _ => calm_ite (calm_setCore _) (calm_pure _)) fun _ => ?_
  refine calm_bind (calm_bind calm_getCore fun _ => calm_ite (calm_setCore _) (calm_pure _)) fun _ => ?_
  refine calm_bind calm_getCore fun core => calm_ite (calm_bind num fun _ => ?_) (calm_pure _)
  exact calm_ite (calm_bind calm_getCore fun _ => calm_bind (calm_setLog _) fun _ => calm_setCore _) (calm_pure _)

end Core
end HotstuffDag
