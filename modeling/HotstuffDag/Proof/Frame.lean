import HotstuffDag.Proof.CommitFrame
import HotstuffDag.Proof.Domains

/-! # What acts leave alone -/

namespace HotstuffDag
open Library Library.Exec
variable {got : ConsensusMessage → Prop}

/-- Acts of the agreement stay in their epoch and away from chains and blocks. -/
structure AbaFrame (k : Core) (l : List Event) (k' : Core) (l' : List Event) : Prop where
  name : k'.name = k.name
  committee : k'.committee = k.committee
  parameters : k'.parameters = k.parameters
  store : k'.store = k.store
  epoch : k'.epoch = k.epoch
  pubkeyToChain : k'.pubkeyToChain = k.pubkeyToChain
  log : l <+: l'

theorem AbaAct.frame [Crypto] {k k' : Core} {l l' : List Event} (act : AbaAct got k l k' l') :
    AbaFrame k l k' l' := by
  cases act with
  | nextRound => exact ⟨rfl, rfl, rfl, rfl, rfl, rfl, by simp [List.append_assoc]⟩
  | _ => exact ⟨rfl, rfl, rfl, rfl, rfl, rfl, by simp⟩

/-- The events of the agreement. -/
def Event.ofAba : Event → Prop
  | .transmit _ _ _ | .mempool _ | .signed (.abaVal _) | .savedTc _ | .abaInput _ _ _ | .binValue _ _ _
  | .abaOutput _ _ _ | .assembledAba _ | .coin _ _ _ | .coinPhase _ | .coinCall _ _ | .proofCall _ _ => True
  | _ => False

theorem Event.ofAba_of_quiet {e : Event} (h : e.quiet) : e.ofAba := by
  unfold Event.quiet at h
  split at h <;> trivial

theorem Core.coinEvents_ofAba [Crypto] {k : Core} {share : RandomnessShare} {e : Event} (h : e ∈ k.coinEvents share) :
    e.ofAba := by
  unfold Core.coinEvents at h
  split at h
  · rw [List.mem_singleton.mp h]
    trivial
  · simp at h

theorem Core.mem_abaEvents {k : Core} {v : ABAVal} {e : Event} (h : e ∈ k.abaEvents v) :
    ∃ proof, e = .assembledAba proof ∧ (k.aggregator.addAbaVal v k.committee).1 = .ok (some proof) := by
  unfold Core.abaEvents at h
  split at h
  · rename_i proof completed
    exact ⟨proof, List.mem_singleton.mp h, completed⟩
  · exact absurd h List.not_mem_nil

theorem Core.abaEvents_ofAba {k : Core} {v : ABAVal} {e : Event} (h : e ∈ k.abaEvents v) : e.ofAba := by
  obtain ⟨_, rfl, -⟩ := Core.mem_abaEvents h
  trivial

/-- What an act of the agreement logs. -/
theorem AbaAct.more [Crypto] {k k' : Core} {l l' : List Event} (act : AbaAct got k l k' l') :
    ∃ more, l' = l ++ more ∧ ∀ e ∈ more, e.ofAba := by
  have single {e : Event} (about : e.ofAba) : ∀ e' ∈ [e], e'.ofAba := fun e' mem => List.mem_singleton.mp mem ▸ about
  cases act with
  | quiet quiet => exact ⟨_, rfl, single (Event.ofAba_of_quiet quiet)⟩
  | hearShare => exact ⟨_, rfl, fun e mem => Core.coinEvents_ofAba mem⟩
  | hearVal | hearAux => exact ⟨_, rfl, fun e mem => Core.abaEvents_ofAba mem⟩
  | keepTc | takeInput | castInput | amplify | castAux | castProof | accept | callCoin | callProof | outputCoin | outputProof
  | enterCoin => exact ⟨_, rfl, single trivial⟩
  | nextRound =>
      refine ⟨_, List.append_assoc _ _ _, fun e mem => ?_⟩
      rcases List.mem_append.mp mem with mem | mem <;> exact List.mem_singleton.mp mem ▸ trivial
  | _ => exact ⟨[], (List.append_nil _).symm, fun e mem => absurd mem List.not_mem_nil⟩

theorem AbaAct.events [Crypto] {k k' : Core} {l l' : List Event} (act : AbaAct got k l k' l') {e : Event}
    (h : e ∈ l') : e ∈ l ∨ e.ofAba := by
  obtain ⟨more, log, each⟩ := act.more
  rw [log] at h
  exact (List.mem_append.mp h).imp_right (each e)

theorem AbaFrame.refl (k : Core) (l : List Event) : AbaFrame k l k l :=
  ⟨rfl, rfl, rfl, rfl, rfl, rfl, List.prefix_refl _⟩

theorem AbaFrame.trans {k k' k'' : Core} {l l' l'' : List Event} (h : AbaFrame k l k' l')
    (h' : AbaFrame k' l' k'' l'') : AbaFrame k l k'' l'' :=
  ⟨h'.name.trans h.name, h'.committee.trans h.committee, h'.parameters.trans h.parameters,
    h'.store.trans h.store, h'.epoch.trans h.epoch, h'.pubkeyToChain.trans h.pubkeyToChain, h.log.trans h'.log⟩

theorem AbaEvolves.frame [Crypto] {s s' : State} (h : AbaEvolves got s s') : AbaFrame s.core s.log s'.core s'.log := by
  have along : ∀ b : Core × List Event, Relation.ReflTransGen
      (fun a b : Core × List Event => AbaAct got a.1 a.2 b.1 b.2) (s.core, s.log) b →
      AbaFrame s.core s.log b.1 b.2 := by
    intro b path
    induction path with
    | refl => exact AbaFrame.refl _ _
    | tail _ act ih => exact ih.trans act.frame
  exact along _ h.2

theorem AbaEvolves.leader [Crypto] {s s' : State} (h : AbaEvolves got s s') : s'.core.leader = s.core.leader := by
  unfold Core.leader
  rw [h.frame.committee, h.frame.epoch]

theorem CommitFrame.events {s s' : State} (h : CommitFrame s s') {e : Event} (he : e ∈ s'.log) :
    e ∈ s.log ∨ e.ofCommit := by
  obtain ⟨more, log, each⟩ := h.log
  rw [log] at he
  exact (List.mem_append.mp he).imp_right (each e)

/-- All acts keep the identity of the node and of the chain, and the log so far. -/
structure Frame (s s' : Conf) : Prop where
  name : s'.core.name = s.core.name
  committee : s'.core.committee = s.core.committee
  parameters : s'.core.parameters = s.core.parameters
  chain : s'.chain.name = s.chain.name
  log : s.log <+: s'.log

theorem Frame.refl (s : Conf) : Frame s s := ⟨rfl, rfl, rfl, rfl, List.prefix_refl _⟩

theorem Frame.trans {s s' s'' : Conf} (h : Frame s s') (h' : Frame s' s'') : Frame s s'' :=
  ⟨h'.name.trans h.name, h'.committee.trans h.committee, h'.parameters.trans h.parameters,
    h'.chain.trans h.chain, h.log.trans h'.log⟩

theorem CommitFrame.frame {s s' : State} (h : CommitFrame s s') : Frame s.conf s'.conf := by
  obtain ⟨more, log, -⟩ := h.log
  refine ⟨?_, ?_, ?_, ?_, ⟨more, log.symm⟩⟩
  · exact h.core_eq Core.name fun _ _ => rfl
  · exact h.core_eq Core.committee fun _ _ => rfl
  · exact h.core_eq Core.parameters fun _ _ => rfl
  · exact h.chain_eq Chain.name fun _ => rfl

@[simp] theorem Chain.certify_name (c : Chain) (epoch : SeqNumber) (qc : QC) :
    (c.certify epoch qc).name = c.name := by
  unfold certify update advance
  split <;> rfl

theorem Chain.height_lt_certify {c : Chain} {epoch : SeqNumber} {qc : QC}
    (small : qc.height.toNat + 1 < 2 ^ 64 ∨ qc.height < c.height) : qc.height < (c.certify epoch qc).height := by
  unfold certify update advance
  split
  · assumption
  · rename_i reached
    have small := small.resolve_right reached
    rw [UInt64.lt_iff_toNat_lt, toNat_succ small]
    exact Nat.lt_succ_self _

theorem Chain.height_le_certify {c : Chain} {epoch : SeqNumber} {qc : QC}
    (small : qc.height.toNat + 1 < 2 ^ 64 ∨ qc.height < c.height) : c.height ≤ (c.certify epoch qc).height := by
  by_cases old : qc.height < c.height
  · unfold certify update advance
    rw [if_pos old]
    exact UInt64.le_refl _
  · exact UInt64.le_trans (UInt64.not_lt.mp old) (UInt64.le_of_lt (height_lt_certify small))

theorem Chain.certify_epoch (c : Chain) (epoch : SeqNumber) (qc : QC) : (c.certify epoch qc).epoch = c.epoch := by
  unfold certify update advance
  split <;> rfl

theorem Chain.certify_entries (c : Chain) (epoch : SeqNumber) (qc : QC) :
    (c.certify epoch qc).heightToDigest = c.heightToDigest.insert qc.height qc.hash ∧
      (c.certify epoch qc).highQc = (if qc.height > c.highQc.height then qc else c.highQc) ∧
      (c.certify epoch qc).lastCommittedHeight = c.lastCommittedHeight := by
  unfold certify update advance
  split <;> exact ⟨rfl, rfl, rfl⟩

/-- The restart puts the last committed height one below the height. -/
theorem Chain.toNat_restart {c : Chain} {val : UInt64} (small : val.toNat + 10 < 2 ^ 64) :
    (c.restart val).height.toNat = val.toNat + 10 ∧ (c.restart val).lastCommittedHeight.toNat = val.toNat + 9 := by
  have ten : NEXT_EPOCH_HEIGHT.toNat = 10 := rfl
  have one : UInt64.toNat 1 = 1 := rfl
  have sum : (val + NEXT_EPOCH_HEIGHT).toNat = val.toNat + 10 := by
    rw [UInt64.toNat_add, ten, Nat.mod_eq_of_lt small]
  have le : (1 : UInt64) ≤ val + NEXT_EPOCH_HEIGHT := by
    rw [UInt64.le_iff_toNat_le, sum, one]
    omega
  refine ⟨sum, ?_⟩
  unfold restart
  dsimp only
  rw [UInt64.toNat_sub_of_le _ _ le, sum, one]
  rfl

/-- A certificate takes its block from the last vote. -/
theorem Aggregator.addVote_some {a : Aggregator} {v : Vote} {c : Committee} {qc : QC}
    (h : (a.addVote v c).1 = .ok (some qc)) : qc.hash = v.hash ∧ qc.height = v.height := by
  unfold addVote QCMaker.append at h
  dsimp only at h
  split at h
  · contradiction
  · split at h
    · rw [← Option.some.inj (Except.ok.inj h)]
      exact ⟨rfl, rfl⟩
    · simp at h

variable [Bincode]

theorem Act.frame [Crypto] {s s' : Conf} (act : Act got s s') : Frame s s' := by
  cases act with
  | aba act =>
      have frame := act.frame
      exact ⟨frame.name, frame.committee, frame.parameters, rfl, frame.log⟩
  | certify => exact ⟨rfl, rfl, rfl, Chain.certify_name _ _ _, List.prefix_refl _⟩
  | @commit fuel env k c l b _ => exact (Core.commit_frame fuel b ⟨k, c, l, env⟩).frame
  | grant => exact ⟨rfl, rfl, rfl, rfl, by simp [List.append_assoc]⟩
  | _ => exact ⟨rfl, rfl, rfl, rfl, by simp⟩

/-- Only blocks that reach `process_block` are stored. -/
theorem Act.store [Crypto] {s s' : Conf} (act : Act got s s') : s'.core.store = s.core.store ∨
    ∃ b, Origin got s.core s.chain s.log b ∧ Event.process b ∈ s'.log ∧
      s'.core.store = s.core.store.insert b.digest (.block b) := by
  cases act with
  | aba act => exact .inl act.frame.store
  | @commit fuel env k c l b _ =>
      exact .inl ((Core.commit_frame fuel b ⟨k, c, l, env⟩).core_eq Core.store fun _ _ => rfl)
  | process why => exact .inr ⟨_, why, List.mem_append_right _ List.mem_cons_self, rfl⟩
  | _ => exact .inl rfl

/-- What a store of blocks reads when one is added. -/
theorem stored_insert [Crypto] {store : Store} {b b' : Block} {d : Digest} {value : Value}
    (stored : (store.insert b.digest (.block b)).get? d = some value) (decodes : Synchronizer.decodeBlock value = .ok b') :
    (b.digest = d ∧ b' = b) ∨ store.get? d = some value := by
  rw [Map.get?_insert] at stored
  split at stored
  · rename_i same
    rw [← Option.some.inj stored] at decodes
    exact .inl ⟨same, (Except.ok.inj decodes).symm⟩
  · exact .inr stored

/-- What it reads when a payload is added. -/
theorem stored_insert_payload [Crypto] {store : Store} {p : Payload} {b : Block} {d : Digest} {value : Value}
    (stored : (store.insert p.digest (.payload p)).get? d = some value) (decodes : Synchronizer.decodeBlock value = .ok b) :
    Bincode.blockOfPayload p = some b ∨ store.get? d = some value := by
  rw [Map.get?_insert] at stored
  split at stored
  · left
    rw [← Option.some.inj stored] at decodes
    exact Synchronizer.decodeBlock_payload decodes
  · exact .inr stored

/-- No stored value panics when it is read as a block. -/
def Legible (store : Store) : Prop :=
  ∀ d value, store.get? d = some value → Synchronizer.decodeBlock value ≠ .error .panic

theorem Legible.insert {store : Store} (h : Legible store) {d : Digest} {value : Value}
    (reads : Synchronizer.decodeBlock value ≠ .error .panic) : Legible (store.insert d value) := by
  intro d' value' stored
  rw [Map.get?_insert] at stored
  split at stored
  · rw [← Option.some.inj stored]
    exact reads
  · exact h d' value' stored

theorem Synchronizer.block_reads (b : Block) : decodeBlock (.block b) ≠ .error .panic := nofun

theorem Synchronizer.payload_reads {p : Payload} (h : Bincode.panicsOn p = false) : decodeBlock (.payload p) ≠ .error .panic := by
  unfold decodeBlock
  dsimp only
  rw [if_neg (by simp [h])]
  split <;> simp

/-- Every act signs with the key of the node. -/
theorem Act.signer [Crypto] {s s' : Conf} (act : Act got s s') {x : Signed} (h : Event.signed x ∈ s'.log) :
    Event.signed x ∈ s.log ∨ x.signer = s.core.name ∨ x.kind = .abaVal := by
  cases act with
  | aba act =>
      rcases act.events h with old | new
      · exact .inl old
      · cases x with
        | abaVal => exact .inr (.inr rfl)
        | _ => exact new.elim
  | @commit fuel env k c l b _ =>
      rcases (Core.commit_frame fuel b ⟨k, c, l, env⟩).events h with old | new
      · exact .inl old
      · exact new.elim
  | countVote =>
      refine .inl ((List.mem_append.mp h).resolve_right fun new => ?_)
      unfold Core.assembledEvents at new
      split at new <;> simp at new
  | propose | grant | signTimeout =>
      simp only [List.mem_append, List.mem_singleton, Event.signed.injEq] at h
      rcases h with h | rfl
      · exact .inl (by simpa using h)
      · exact .inr (.inl rfl)
  | countTimeout =>
      refine .inl ((List.mem_append.mp h).resolve_right fun new => ?_)
      unfold Core.savedTcs at new
      split at new <;> simp at new
  | certify | lockVote => exact .inl h
  | _ => exact .inl (by simpa using h)

theorem Acts.frame [Crypto] {s s' : Conf} (acts : Acts got s s') : Frame s s' := by
  induction acts with
  | refl => exact Frame.refl s
  | tail _ act ih => exact ih.trans act.frame

omit [Bincode] in
theorem Frame.mem {s s' : Conf} (h : Frame s s') {e : Event} (he : e ∈ s.log) : e ∈ s'.log :=
  h.log.subset he

namespace Evolves
variable {s t : State}

theorem name [Crypto] (h : Evolves got s t) : t.core.name = s.core.name := (Acts.frame h).name

theorem committee [Crypto] (h : Evolves got s t) : t.core.committee = s.core.committee := (Acts.frame h).committee

theorem chainName [Crypto] (h : Evolves got s t) : t.chain.name = s.chain.name := (Acts.frame h).chain

theorem mem [Crypto] (h : Evolves got s t) {e : Event} (he : e ∈ s.log) : e ∈ t.log := (Acts.frame h).mem he

end Evolves
end HotstuffDag
