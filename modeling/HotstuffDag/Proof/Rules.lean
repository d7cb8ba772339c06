import HotstuffDag.Proof.Act

/-! # Following a handler

What the steps of a handler do, and rules that follow it from one state to the next as a sequence
of acts. -/

namespace HotstuffDag
open Library Library.Exec

@[simp] theorem pure_run {α : Type} (a : α) (s : State) : (pure a : M α) s = .ok a s := rfl

@[simp] theorem getCore_run (s : State) : getCore s = .ok s.core s := rfl

@[simp] theorem get_run (s : State) : (get : M State) s = .ok s s := rfl

@[simp] theorem getChain_run (s : State) : getChain s = .ok s.chain s := rfl

@[simp] theorem modifyCore_run (g : Core → Core) (s : State) :
    modifyCore g s = .ok () { s with core := g s.core } := rfl

@[simp] theorem modifyChain_run (g : Chain → Chain) (s : State) :
    modifyChain g s = .ok () { s with chain := g s.chain } := rfl

@[simp] theorem emit_run (e : Event) (s : State) : emit e s = .ok () { s with log := s.log ++ [e] } := rfl

@[simp] theorem liftResult_run_ok {α : Type} (a : α) (s : State) : liftResult (.ok a) s = .ok a s := rfl

@[simp] theorem liftResult_run_error {α : Type} (e : ConsensusError) (s : State) :
    (liftResult (.error e) : M α) s = .error (.error e) s := rfl

theorem toNat_succ {n : SeqNumber} (small : n.toNat + 1 < 2 ^ 64) : (n + 1).toNat = n.toNat + 1 := by
  have one : UInt64.toNat 1 = 1 := rfl
  rw [UInt64.toNat_add, one, Nat.mod_eq_of_lt small]

/-- A successor that is not 0 has not overflowed. -/
theorem toNat_of_succ {n m : SeqNumber} (next : n + 1 = m) (positive : 0 < m) : n.toNat + 1 = m.toNat := by
  have one : UInt64.toNat 1 = 1 := rfl
  have bound : n.toNat < 2 ^ 64 := UInt64.toNat_lt n
  rw [UInt64.lt_iff_toNat_lt] at positive
  rcases Nat.lt_or_ge (n.toNat + 1) (2 ^ 64) with small | large
  · rw [← next, toNat_succ small]
  · have last : n.toNat + 1 = 2 ^ 64 := Nat.le_antisymm (Nat.succ_le_of_lt bound) large
    have wraps : m.toNat = 0 := by
      rw [← next, UInt64.toNat_add, one, last, Nat.mod_self]
    rw [wraps] at positive
    exact absurd positive (Nat.lt_irrefl 0)

/-! ## Steps of a handler -/

section
variable {α β : Type} {R : State → State → Prop} [Std.Refl R] [IsTrans State R] {s : State}
  {Q : β → State → Prop}

section
omit [Std.Refl R] [IsTrans State R]

theorem leads_getCore {f : Core → M β} (h : Leads R (f s.core) s Q) :
    Leads R (getCore >>= f) s Q := h

theorem leads_getChain {f : Chain → M β} (h : Leads R (f s.chain) s Q) :
    Leads R (getChain >>= f) s Q := h

theorem leads_get {f : State → M β} (h : Leads R (f s) s Q) :
    Leads R (get >>= f) s Q := h

theorem leads_pure {a : α} {f : α → M β} (h : Leads R (f a) s Q) :
    Leads R (pure a >>= f) s Q := h

end

section
omit [Std.Refl R]

theorem leads_modifyCore {g : Core → Core} {f : PUnit → M β}
    (act : R s { s with core := g s.core })
    (h : Leads R (f ⟨⟩) { s with core := g s.core } Q) :
    Leads R (modifyCore g >>= f) s Q := by
  have result := h.after act
  exact result

theorem leads_modifyChain {g : Chain → Chain} {f : PUnit → M β}
    (act : R s { s with chain := g s.chain })
    (h : Leads R (f ⟨⟩) { s with chain := g s.chain } Q) :
    Leads R (modifyChain g >>= f) s Q := by
  have result := h.after act
  exact result

theorem leads_emit {e : Event} {f : PUnit → M β} (act : R s { s with log := s.log ++ [e] })
    (h : Leads R (f ⟨⟩) { s with log := s.log ++ [e] } Q) :
    Leads R (emit e >>= f) s Q := by
  have result := h.after act
  exact result

end

omit [Std.Refl R] [IsTrans State R] in
theorem leads_last {x : M β} (h : Leads R (x >>= pure) s Q) : Leads R x s Q := by
  rwa [bind_pure] at h

section
omit [IsTrans State R]

theorem leads_error {e : ConsensusError} : Leads R (error e : M β) s Q :=
  Leads.throw

theorem leads_panic : Leads R (panic : M β) s Q := Leads.throw

theorem leads_liftResult {result : ConsensusResult α} {f : α → M β}
    (h : ∀ a, result = .ok a → Leads R (f a) s Q) :
    Leads R (liftResult result >>= f) s Q := by
  cases result with
  | ok a => exact h a rfl
  | error e => exact leads_error

theorem leads_unwrap {option : Option α} {f : α → M β}
    (h : ∀ a, option = some a → Leads R (f a) s Q) :
    Leads R (unwrap option >>= f) s Q := by
  cases option with
  | some a => exact h a rfl
  | none => exact leads_panic

theorem leads_checkedAdd {counter : Counter} {a b : SeqNumber} {f : SeqNumber → M β}
    (h : a.toNat + b.toNat < 2 ^ 64 → Leads R (f (a + b)) s Q) :
    Leads R (checkedAdd counter a b >>= f) s Q := by
  unfold checkedAdd
  split
  · rename_i small
    exact h small
  · exact Leads.throw

end
end

/-! ## Messages -/

section
variable {β : Type} {R : State → State → Prop} [Std.Refl R] [IsTrans State R] {s : State}
  {Q : β → State → Prop}

theorem leads_transmit {message : ConsensusMessage} {dest : Option PublicKey} {tag : UInt8}
    {f : PUnit → M β}
    (act : ∀ addresses, R s { s with log := s.log ++ [.transmit tag message addresses] })
    (h : ∀ addresses, Leads R (f ⟨⟩)
      { s with log := s.log ++ [.transmit tag message addresses] } Q) :
    Leads R (Synchronizer.transmit message dest tag >>= f) s Q := by
  unfold Synchronizer.transmit
  rw [bind_assoc]
  refine leads_getCore ?_
  have emitted (addresses : List SocketAddr) :
      Leads R (emit (.transmit tag message addresses) >>= f) s Q :=
    leads_emit (act addresses) (h addresses)
  cases dest with
  | none =>
      by_cases hotstuff : tag = HOTSTUFF
      · subst hotstuff
        exact emitted _
      · simp only [if_neg hotstuff]
        exact emitted _
  | some name =>
      by_cases hotstuff : tag = HOTSTUFF
      · simp only [hotstuff, if_true, bind_assoc]
        exact leads_liftResult fun _ _ => leads_pure (hotstuff ▸ emitted _)
      · simp only [if_neg hotstuff, bind_assoc]
        exact leads_liftResult fun _ _ => leads_pure (emitted _)

omit [Std.Refl R] in
/-- A broadcast never fails, so it forms one act with the change before it. -/
theorem leads_modifyCore_broadcast {g : Core → Core} {message : ConsensusMessage} {tag : UInt8}
    {f : PUnit → M β}
    (act : ∀ addresses, R s
      { s with core := g s.core, log := s.log ++ [.transmit tag message addresses] })
    (h : ∀ addresses, Leads R (f ⟨⟩)
      { s with core := g s.core, log := s.log ++ [.transmit tag message addresses] } Q) :
    Leads R
      (modifyCore g >>= fun _ => Synchronizer.transmit message none tag >>= f) s Q := by
  by_cases hotstuff : tag = HOTSTUFF
  · have result := (h ((g s.core).committee.broadcastAddresses (g s.core).name)).after (act _)
    subst hotstuff
    exact result
  · have result := (h ((g s.core).committee.smvbaBroadcastAddresses (g s.core).name)).after (act _)
    unfold Synchronizer.transmit
    simp only [if_neg hotstuff]
    exact result

end

/-! ## Blocks from the store -/

section
variable {β : Type} {R : State → State → Prop} [Std.Refl R] [IsTrans State R] {s : State} {Q : β → State → Prop} {digest : Digest}

omit [Std.Refl R] in
theorem leads_read {f : Option Value → M β} (env : ∀ s env, R s { s with env := env })
    (h : ∀ env, Leads R (f (s.core.store.get? digest)) { s with env := env } Q) :
    Leads R (Synchronizer.read digest >>= f) s Q := by
  unfold Synchronizer.read
  rw [bind_assoc]
  refine leads_get ?_
  cases failures : s.env.failures with
  | nil => exact h s.env
  | cons failed rest =>
      cases failed with
      | true => exact env s _
      | false =>
          have result := (h { s.env with failures := rest }).after (env s _)
          exact result

theorem decoded [Bincode] {v : Value} {b : Block} (stored : s.core.store.get? digest = some v)
    (decodes : Synchronizer.decodeBlock v = .ok b) : Fetched s.core.store digest b :=
  .inr ⟨v, stored, decodes⟩

omit [IsTrans State R] in
theorem leads_readBlock [Bincode] {v : Value} {f : Block → M β} (h : ∀ b, Synchronizer.decodeBlock v = .ok b → Leads R (f b) s Q) :
    Leads R (Synchronizer.readBlock v >>= f) s Q := by
  unfold Synchronizer.readBlock
  cases decodes : Synchronizer.decodeBlock v with
  | ok b => exact h b decodes
  | error e => exact Leads.throw

theorem leads_getBlock [Bincode] {author : PublicKey} {block : Option Block} {f : Option Block → M β}
    (env : ∀ s env, R s { s with env := env })
    (request : ∀ env, digest ≠ QC.genesis.hash → s.core.store.get? digest = none →
      R { s with env := env } { s with env := env, log := s.log ++ [.request author digest block] })
    (found : ∀ env b, Fetched s.core.store digest b → Leads R (f (some b)) { s with env := env } Q)
    (missing : ∀ env, digest ≠ QC.genesis.hash → s.core.store.get? digest = none →
      Leads R (f none) { s with env := env, log := s.log ++ [.request author digest block] } Q) :
    Leads R (Synchronizer.getBlock author digest block >>= f) s Q := by
  unfold Synchronizer.getBlock
  by_cases genesis : digest = QC.genesis.hash
  · simp only [if_pos genesis]
    exact found s.env _ (.inl ⟨genesis, rfl⟩)
  · simp only [if_neg genesis, bind_assoc]
    refine leads_read env fun env => ?_
    cases stored : s.core.store.get? digest with
    | none =>
        have result := (missing env genesis stored).after (request env genesis stored)
        exact result
    | some v =>
        simp only [bind_assoc]
        exact leads_readBlock fun b decodes => found env b (decoded stored decodes)

end

/-! ## How a handler ends -/

theorem Synchronizer.decodeBlock_error [Bincode] {value : Value} {e : Exn} (h : decodeBlock value = .error e) :
    e = .error .serializationError ∨ e = .panic := by
  cases value with
  | block b => contradiction
  | payload p =>
      unfold decodeBlock at h
      dsimp only at h
      split at h
      · exact .inr (Except.error.inj h).symm
      · split at h
        · contradiction
        · exact .inl (Except.error.inj h).symm

theorem Synchronizer.decodeBlock_payload [Bincode] {p : Payload} {b : Block} (h : decodeBlock (.payload p) = .ok b) :
    Bincode.blockOfPayload p = some b := by
  unfold decodeBlock at h
  dsimp only at h
  split at h
  · contradiction
  · split at h
    · rename_i b' reads
      rw [reads, Except.ok.inj h]
    · contradiction

/-- What `get_block` reads for a digest. -/
def Synchronizer.fetch [Bincode] (store : Store) (digest : Digest) : Option Block :=
  if digest = QC.genesis.hash then some Block.genesis
  else (store.get? digest).bind fun value => (decodeBlock value).toOption

theorem Synchronizer.fetched [Bincode] {store : Store} {digest : Digest} {b : Block} (h : fetch store digest = some b) :
    Fetched store digest b := by
  unfold fetch at h
  split at h
  · exact .inl ⟨‹_›, (Option.some.inj h).symm⟩
  · obtain ⟨value, stored, decodes⟩ := Option.bind_eq_some_iff.mp h
    refine .inr ⟨value, stored, ?_⟩
    cases read : decodeBlock value with
    | ok b' =>
        rw [read] at decodes
        exact congrArg Except.ok (Option.some.inj decodes)
    | error e =>
        rw [read] at decodes
        contradiction

section
variable {α β : Type} {s : State} {Q : β → State → Prop} {E : Exn → State → Prop}

theorem ends_get {f : State → M β} (h : Ends (f s) s Q E) : Ends (get >>= f) s Q E := h

theorem ends_getCore {f : Core → M β} (h : Ends (f s.core) s Q E) : Ends (getCore >>= f) s Q E := h

theorem ends_getChain {f : Chain → M β} (h : Ends (f s.chain) s Q E) : Ends (getChain >>= f) s Q E := h

theorem ends_modifyCore {g : Core → Core} {f : PUnit → M β} (h : Ends (f ⟨⟩) { s with core := g s.core } Q E) :
    Ends (modifyCore g >>= f) s Q E := h

theorem ends_emit {e : Event} {f : PUnit → M β} (h : Ends (f ⟨⟩) { s with log := s.log ++ [e] } Q E) :
    Ends (emit e >>= f) s Q E := h

theorem ends_checkedAdd {counter : Counter} {a b : SeqNumber} {f : SeqNumber → M β} (large : E (.overflow counter) s)
    (h : a.toNat + b.toNat < 2 ^ 64 → Ends (f (a + b)) s Q E) : Ends (checkedAdd counter a b >>= f) s Q E := by
  unfold checkedAdd
  split
  · rename_i small
    exact h small
  · exact large

theorem ends_modifyChain {g : Chain → Chain} {f : PUnit → M β} (h : Ends (f ⟨⟩) { s with chain := g s.chain } Q E) :
    Ends (modifyChain g >>= f) s Q E := h

theorem ends_unwrap {option : Option α} {f : α → M β} (none : option = none → E .panic s)
    (some : ∀ a, option = some a → Ends (f a) s Q E) : Ends (unwrap option >>= f) s Q E := by
  cases option with
  | none => exact none rfl
  | some a => exact some a rfl

theorem ends_liftResult {result : ConsensusResult α} {f : α → M β} (failed : ∀ e, E (.error e) s)
    (h : ∀ a, result = .ok a → Ends (f a) s Q E) : Ends (liftResult result >>= f) s Q E := by
  cases result with
  | ok a => exact h a rfl
  | error e => exact failed e

theorem ends_withChain {x : M α} {target : Chain} {f : α × Chain → M β} {T : α → State → Prop} {E₀ : Exn → State → Prop}
    (run : Ends x { s with chain := target } T E₀) (back : ∀ e t, E₀ e t → E e { t with chain := s.chain })
    (h : ∀ a t, T a t → Ends (f (a, t.chain)) { t with chain := s.chain } Q E) : Ends (withChain target x >>= f) s Q E := by
  unfold Ends at run ⊢
  rw [bind_eq]
  unfold withChain
  cases exit : x { s with chain := target } with
  | ok a t =>
      rw [exit] at run
      exact h a t run
  | error e t =>
      rw [exit] at run
      exact back e t run

/-- A read fails only if the environment still has an answer for it. -/
theorem ends_readReady {digest : Digest} {f : Option Value → M β}
    (failed : s.env.failures ≠ [] → ∀ e env, E (.error e) { s with env := env })
    (h : ∀ env, (s.env.failures = [] → env = s.env) → Ends (f (s.core.store.get? digest)) { s with env := env } Q E) :
    Ends (Synchronizer.read digest >>= f) s Q E := by
  unfold Synchronizer.read
  rw [bind_assoc]
  cases failures : s.env.failures with
  | nil =>
      have result := h s.env fun _ => rfl
      unfold Ends at result ⊢
      simp only [bind_eq, get_run, failures]
      exact result
  | cons fails rest =>
      have unready : s.env.failures ≠ [] := failures ▸ List.cons_ne_nil fails rest
      cases fails with
      | true =>
          have result := failed unready .storeError { s.env with failures := rest }
          unfold Ends
          simp only [bind_eq, get_run, failures]
          exact result
      | false =>
          have result := h { s.env with failures := rest } fun ready => absurd ready unready
          unfold Ends at result ⊢
          simp only [bind_eq, get_run, failures]
          exact result

theorem ends_read {digest : Digest} {f : Option Value → M β} (failed : ∀ e env, E (.error e) { s with env := env })
    (h : ∀ env, Ends (f (s.core.store.get? digest)) { s with env := env } Q E) :
    Ends (Synchronizer.read digest >>= f) s Q E :=
  ends_readReady (fun _ => failed) fun env _ => h env

theorem ends_readBlock [Bincode] {value : Value} {f : Block → M β}
    (failed : (Synchronizer.decodeBlock value).toOption = none → ∀ e, E (.error e) s)
    (panics : Synchronizer.decodeBlock value = .error .panic → E .panic s)
    (h : ∀ b, Synchronizer.decodeBlock value = .ok b → Ends (f b) s Q E) : Ends (Synchronizer.readBlock value >>= f) s Q E := by
  unfold Synchronizer.readBlock
  cases decodes : Synchronizer.decodeBlock value with
  | ok b => exact h b decodes
  | error e =>
      rcases Synchronizer.decodeBlock_error decodes with rfl | rfl
      · exact failed (by rw [decodes]; rfl) _
      · exact panics decodes

/-- A block is got just if it can be fetched, unless the environment lets a read fail. -/
theorem ends_getBlockReady [Bincode] {author : PublicKey} {digest : Digest} {block : Option Block} {f : Option Block → M β}
    (failed : (s.env.failures = [] → Synchronizer.fetch s.core.store digest = none) → ∀ e env, E (.error e) { s with env := env })
    (panics : ∀ value env, s.core.store.get? digest = some value → Synchronizer.decodeBlock value = .error .panic →
      Synchronizer.fetch s.core.store digest = none → E .panic { s with env := env })
    (found : ∀ env b, (s.env.failures = [] → env = s.env) → Synchronizer.fetch s.core.store digest = some b →
      Ends (f (some b)) { s with env := env } Q E)
    (missing : ∀ env, (s.env.failures = [] → env = s.env) → Synchronizer.fetch s.core.store digest = none →
      Ends (f none) { s with env := env, log := s.log ++ [.request author digest block] } Q E) :
    Ends (Synchronizer.getBlock author digest block >>= f) s Q E := by
  unfold Synchronizer.getBlock
  unfold Synchronizer.fetch at found missing failed panics
  by_cases genesis : digest = QC.genesis.hash
  · simp only [if_pos genesis] at found ⊢
    exact found s.env Block.genesis (fun _ => rfl) rfl
  · simp only [if_neg genesis, bind_assoc] at found missing failed panics ⊢
    refine ends_readReady (fun unready e env => failed (fun ready => absurd ready unready) e env) fun env same => ?_
    cases stored : s.core.store.get? digest with
    | none => exact missing env same (by rw [stored]; rfl)
    | some value =>
        simp only [bind_assoc]
        refine ends_readBlock (fun unreadable e => failed (fun _ => by rw [stored]; exact unreadable) e env)
          (fun panic => panics value env stored panic (by rw [stored, Option.bind_some, panic]; rfl)) fun b decodes => ?_
        exact found env b same (by rw [stored]; simp [decodes, Except.toOption])

theorem ends_getBlock [Bincode] {author : PublicKey} {digest : Digest} {block : Option Block} {f : Option Block → M β}
    (failed : ∀ e env, E (.error e) { s with env := env })
    (panics : ∀ value env, s.core.store.get? digest = some value → Synchronizer.decodeBlock value = .error .panic →
      E .panic { s with env := env })
    (found : ∀ env b, Synchronizer.fetch s.core.store digest = some b → Ends (f (some b)) { s with env := env } Q E)
    (missing : ∀ env, Synchronizer.fetch s.core.store digest = none →
      Ends (f none) { s with env := env, log := s.log ++ [.request author digest block] } Q E) :
    Ends (Synchronizer.getBlock author digest block >>= f) s Q E :=
  ends_getBlockReady (fun _ => failed) (fun value env stored panic _ => panics value env stored panic)
    (fun env b _ => found env b) fun env _ => missing env

end

/-! ## Acts -/

variable [Crypto] {got : ConsensusMessage → Prop}

/-- One state is reached from another by acts. -/
abbrev Evolves [Bincode] (got : ConsensusMessage → Prop) (s s' : State) : Prop := Acts got s.conf s'.conf

instance [Bincode] : Std.Refl (Evolves got) := ⟨fun _ => .refl⟩

instance [Bincode] : IsTrans State (Evolves got) := ⟨fun _ _ _ h h' => h.trans h'⟩

/-- One core is reached from another by acts of the agreement, which need no chain. -/
def AbaEvolves (got : ConsensusMessage → Prop) (s s' : State) : Prop :=
  s'.chain = s.chain ∧ Relation.ReflTransGen
    (fun a b : Core × List Event => AbaAct got a.1 a.2 b.1 b.2) (s.core, s.log) (s'.core, s'.log)

instance : Std.Refl (AbaEvolves got) := ⟨fun _ => ⟨rfl, .refl⟩⟩

instance : IsTrans State (AbaEvolves got) :=
  ⟨fun _ _ _ h h' => ⟨h'.1.trans h.1, h.2.trans h'.2⟩⟩

theorem AbaEvolves.env (s : State) (env : Env) : AbaEvolves got s { s with env := env } := ⟨rfl, .refl⟩

/-- What each act of the agreement keeps is kept along them. -/
theorem AbaEvolves.keeps {P : Core → List Event → Prop}
    (act : ∀ {k l k' l'}, AbaAct got k l k' l' → P k l → P k' l') {s t : State} (reach : AbaEvolves got s t)
    (holds : P s.core s.log) : P t.core t.log := by
  obtain ⟨-, reach⟩ := reach
  have along : ∀ a : Core × List Event, Relation.ReflTransGen
      (fun a b : Core × List Event => AbaAct got a.1 a.2 b.1 b.2) (s.core, s.log) a → P a.1 a.2 := by
    intro a reach
    induction reach with
    | refl => exact holds
    | tail _ step ih => exact act step ih
  exact along _ reach

theorem AbaEvolves.evolves [Bincode] {s s' : State} (h : AbaEvolves got s s') : Evolves got s s' := by
  have lifted := h.2.lift (p := Act got) (fun a : Core × List Event => (⟨a.1, s.chain, a.2⟩ : Conf))
    fun a b act => .aba act
  have same : s'.conf = ⟨s'.core, s.chain, s'.log⟩ := by rw [← h.1]; rfl
  rw [Evolves, same]
  exact lifted

theorem AbaAct.abaEvolves {s : State} {k' : Core} {l' : List Event} (act : AbaAct got s.core s.log k' l') :
    AbaEvolves got s { s with core := k', log := l' } :=
  ⟨rfl, .single act⟩

theorem AbaAct.evolves [Bincode] {s : State} {k' : Core} {l' : List Event} (act : AbaAct got s.core s.log k' l') :
    Evolves got s { s with core := k', log := l' } :=
  .single (.aba act)

end HotstuffDag
