import HotstuffDag.Proof.AbaActs
import HotstuffDag.Proof.VoteActs

/-! # Timeouts, the end of an epoch and the loop -/

namespace HotstuffDag
open Library Library.Exec
variable [Crypto] [Bincode] {got : ConsensusMessage → Prop}

namespace Core
variable {β : Type} {s : State} {Q : β → State → Prop}

/-! ## Timeouts -/

/-- A counted timeout and the certificate it completes form one act. -/
theorem leads_countTimeout {timeout : Timeout}
    (msg : got (.timeout timeout) ∨ Event.signed (.timeout timeout) ∈ s.log)
    (leader : s.core.committee.getLeader timeout.epoch = s.chain.name) (current : ¬ timeout.epoch < s.core.epoch)
    (verified : timeout.verify s.core.committee = .ok ()) :
    Leads (Evolves got) (do
      match ← addTimeout timeout with
      | none => return ()
      | some tc => saveTc tc) s (fun _ _ => True) := by
  have act : Evolves got s { s with
      core := s.core.keepAssembledTc (s.chain.aggregator.addTimeout timeout s.core.committee).1
      chain := s.chain.countTimeout s.core.committee timeout
      log := s.log ++ savedTcs (s.chain.aggregator.addTimeout timeout s.core.committee).1 } :=
    .single (.countTimeout msg leader current verified)
  unfold keepAssembledTc Chain.countTimeout at act
  unfold Leads
  cases added : s.chain.aggregator.addTimeout timeout s.core.committee with
  | mk result aggregator =>
      rw [added] at act
      simp only [addTimeout, bind_eq, get_run, modifyChain_run, added]
      cases result with
      | error e =>
          simp only [savedTcs, List.append_nil] at act
          exact act
      | ok option =>
          cases option with
          | none =>
              simp only [savedTcs, List.append_nil] at act
              exact ⟨act, trivial⟩
          | some tc => exact ⟨act, trivial⟩

theorem leads_handleTimeout {timeout : Timeout}
    (msg : got (.timeout timeout) ∨ Event.signed (.timeout timeout) ∈ s.log)
    (leader : s.core.committee.getLeader timeout.epoch = s.chain.name) :
    Leads (Evolves got) (handleTimeout timeout) s (fun _ _ => True) := by
  refine leads_getCore ?_
  refine Leads.ite (fun _ => Leads.pure trivial) fun current => ?_
  refine leads_liftResult fun _ verified => ?_
  refine leads_processQc (.timeout msg leader current verified) fun _ => ?_
  exact leads_countTimeout msg (by simpa using leader) current verified

theorem leads_localTimeoutRound (changing : s.core.isViewChange = true) (leader : s.chain.name = s.core.leader) :
    Leads (Evolves got) localTimeoutRound s (fun _ _ => True) := by
  refine leads_getChain (leads_modifyChain (.single (.lockVote changing leader)) ?_)
  refine leads_getCore (leads_getChain (leads_emit (.single (.signTimeout changing leader)) ?_))
  refine leads_transmit (fun _ => (AbaAct.quiet (by trivial)).evolves) fun addresses => ?_
  exact leads_handleTimeout (.inr (by simp)) leader.symm

theorem leads_checkTimeout (leader : s.chain.name = s.core.leader) :
    Leads (Evolves got) checkTimeout s (fun _ _ => True) := by
  have enter (t : State) : Evolves got t { t with core := { t.core with isViewChange := true } } :=
    AbaAct.evolves .enterViewChange
  refine Leads.bind (Q := fun _ t => t.chain.name = t.core.leader) ?_ fun _ t _ leader => ?_
  · refine leads_getCore (leads_getCore ?_)
    exact Leads.ite (fun _ => ⟨enter s, leader⟩) fun _ => Leads.pure leader
  · refine leads_getCore ?_
    refine Leads.ite (fun _ => Leads.pure trivial) fun _ => ?_
    refine leads_getChain (leads_checkedAdd fun _ => leads_getCore ?_)
    refine Leads.ite (fun _ => ?_) fun _ => Leads.pure trivial
    exact leads_modifyCore (enter t) (leads_localTimeoutRound rfl leader)

/-! ## The end of an epoch -/

theorem leads_outputPhase {fuel : Nat} {output : UInt64} (changing : s.core.isViewChange = true)
    (leader : s.chain.name = s.core.leader) (decided : s.core.abaOutputVal = some output) :
    Leads (Evolves got) (outputPhase fuel output) s (fun _ _ => True) := by
  refine leads_getChain ?_
  split
  · exact Leads.pure trivial
  rename_i digest certified
  refine leads_getCore ?_
  have request (env : Env) (proper : digest ≠ QC.genesis.hash) (stored : s.core.store.get? digest = none) :
      Evolves got { s with env := env } { s with env := env, log := s.log ++ [.request s.core.name digest none] } :=
    .single (.request proper stored fun _ none => by contradiction)
  refine leads_getBlock Evolves.env request (fun env block fetched => ?_) fun _ _ _ => Leads.pure trivial
  refine leads_commit_act (.output changing decided certified fetched) fun t _ frame => ?_
  refine leads_getCore (leads_checkedAdd fun small => ?_)
  refine leads_getChain (leads_checkedAdd fun smallChain => leads_checkedAdd fun smallHeight => ?_)
  have act : Evolves got t { t with
      core := t.core.nextEpoch
      chain := t.chain.restart output
      log := t.log ++ [.epochEnd t.core t.chain output] } := by
    have changing' := (frame.core_eq Core.isViewChange fun _ _ => rfl).trans changing
    have decided' := (frame.core_eq Core.abaOutputVal fun _ _ => rfl).trans decided
    have leader' : t.chain.name = t.core.leader := by
      rw [frame.chain_eq Chain.name fun _ => rfl, frame.core_eq Core.leader fun _ _ => rfl]
      exact leader
    have certified' : t.chain.heightToDigest.get? output = some digest := by
      rw [frame.chain_eq Chain.heightToDigest fun _ => rfl]
      exact certified
    have fetched' : Fetched t.core.store digest block := by
      rw [frame.core_eq Core.store fun _ _ => rfl]
      exact fetched
    exact .single (.nextEpoch changing' leader' decided' certified' fetched' (by simpa using small)
      (by simpa using smallChain) smallHeight)
  suffices h : Leads (Evolves got) (do
      if (← getChain).name = (← getCore).name then
        broadcastPropose fuel (← generateProposal true))
      { t with
        core := t.core.nextEpoch
        chain := t.chain.restart output
        log := t.log ++ [.epochEnd t.core t.chain output] } (fun _ _ => True) by
    have result := h.after act
    exact result
  refine leads_getChain (leads_getCore ?_)
  refine Leads.ite (fun own => ?_) fun _ => Leads.pure trivial
  refine leads_generateProposal (.inl own) (.ended (cue_snoc _ _) rfl) fun block t' reach signed author => ?_
  refine leads_broadcastPropose signed author ?_
  rw [Evolves.chainName reach, Evolves.name reach]
  exact own

theorem leads_updateAbaPhase {fuel : Nat} (leader : s.chain.name = s.core.leader) :
    Leads (Evolves got) (updateAbaPhase fuel) s (fun _ _ => True) := by
  refine leads_getCore ?_
  refine Leads.ite (fun _ => Leads.pure trivial) fun changing => ?_
  have calm : s.core.isViewChange = true := by simpa using changing
  have phases : Leads (Evolves got) updatePhase s (fun _ t => t.core.isViewChange = true ∧
      t.chain.name = t.core.leader) := by
    refine (leads_updatePhase.weaken fun _ t reach same => ?_).mono fun _ => AbaEvolves.evolves
    exact ⟨same.trans calm, by rw [reach.1, reach.leader]; exact leader⟩
  refine Leads.bind phases fun _ t _ ⟨changing', leader'⟩ => ?_
  refine leads_getCore ?_
  split
  · rename_i output decided
    exact leads_outputPhase changing' leader' decided
  · exact leads_processAbaPhase.mono fun _ => AbaEvolves.evolves

end Core
end HotstuffDag
