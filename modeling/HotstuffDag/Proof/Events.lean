import HotstuffDag.Proof.Frame

/-! # Why an event is logged

An event tells of the act that logged it, with the guards of that act. -/

namespace HotstuffDag
open Library Library.Exec
variable [Crypto] {got : ConsensusMessage → Prop}

inductive Reason (got : ConsensusMessage → Prop) (s s' : Conf) : Event → Prop
  | aba {e : Event} (about : e.ofAba)
      (saved : ∀ tc, e = .savedTc tc → got (.tc tc) ∧ tc.verify s.core.committee = .ok ()) : Reason got s s' e
  | commit {e : Event} (about : e.ofCommit) : Reason got s s' e
  | request {author : PublicKey} {digest : Digest} {block : Option Block}
      (missing : s.core.store.get? digest = none) : Reason got s s' (.request author digest block)
  | status {b : Block} {status : PayloadStatus} (msg : got (.propose b) ∨ got (.syncReply b))
      (author : b.author = s.chain.name) (verified : b.verify s.core.committee = .ok ()) :
      Reason got s s' (.payloadStatus b status)
  | proposed {qc : QC} {payload : List Digest} (high : qc = QC.genesis ∨ qc = s.chain.highQc)
      (turn : s.chain.name = s.core.name ∨ ∃ qc, Event.assembled s.chain.name qc ∈ s.log) (cued : Cued s.chain s.log) :
      Reason got s s'
        (.signed (.block (.new qc s.core.name s.chain.height s.chain.epoch payload (s.core.references s.chain))))
  | process {b : Block} (why : Origin got s.core s.chain s.log b) : Reason got s s' (.process b)
  | twoChain {b b0 b1 : Block} : Reason got s s' (.twoChain s.core s.chain b b0 b1)
  | voted {b : Block} (processed : Event.process b ∈ s.log)
      (origin : b.author = s.chain.name ∨ b.author = s.core.name ∧ ∃ qc, Event.assembled s.chain.name qc ∈ s.log)
      (height : b.height = s.chain.height ∨ b.qc.eq QC.genesis = true) (fresh : b.height > s.chain.lastVotedHeight)
      (next : b.qc.height + 1 = b.height ∨ b.qc.eq QC.genesis = true) (small : b.qc.height.toNat + 1 < 2 ^ 64) :
      Reason got s s' (.voted s.chain b)
  | vote {b : Block} (voted : Event.voted s.chain b ∈ s'.log) : Reason got s s' (.signed (.vote (.new b s.core.name)))
  | assembled {v : Vote} {qc : QC} (msg : got (.vote v) ∨ Event.signed (.vote v) ∈ s.log)
      (current : ¬ v.height < s.chain.height) (verified : v.verify s.core.committee = .ok ())
      (added : (s.chain.aggregator.addVote v s.core.committee).1 = .ok (some qc)) :
      Reason got s s' (.assembled s.chain.name qc)
  | savedTc {t : Timeout} {tc : TC} (msg : got (.timeout t) ∨ Event.signed (.timeout t) ∈ s.log)
      (verified : t.verify s.core.committee = .ok ())
      (added : (s.chain.aggregator.addTimeout t s.core.committee).1 = .ok (some tc)) : Reason got s s' (.savedTc tc)
  | timeout (leader : s.chain.name = s.core.leader) :
      Reason got s s' (.signed (.timeout (.new s.chain.highQc s.core.epoch s.core.name)))
  | epochEnd {val : UInt64} (leader : s.chain.name = s.core.leader) : Reason got s s' (.epochEnd s.core s.chain val)

theorem AbaAct.saved {k k' : Core} {l l' : List Event} (act : AbaAct got k l k' l') {tc : TC}
    (h : Event.savedTc tc ∈ l') : Event.savedTc tc ∈ l ∨ got (.tc tc) ∧ tc.verify k.committee = .ok () := by
  cases act with
  | keepTc msg _ verified =>
      rcases List.mem_append.mp h with old | new
      · exact .inl old
      · obtain rfl := Event.savedTc.inj (List.mem_singleton.mp new)
        exact .inr ⟨msg, verified⟩
  | quiet quiet =>
      rcases List.mem_append.mp h with old | new
      · exact .inl old
      · rw [← List.mem_singleton.mp new] at quiet
        exact quiet.elim
  | hearShare =>
      refine .inl ((List.mem_append.mp h).resolve_right fun new => ?_)
      unfold Core.coinEvents at new
      split at new <;> simp at new
  | hearVal | hearAux =>
      refine .inl ((List.mem_append.mp h).resolve_right fun new => ?_)
      obtain ⟨_, same, -⟩ := Core.mem_abaEvents new
      contradiction
  | _ => exact .inl (by simpa using h)

variable [Bincode]

theorem Act.reason {s s' : Conf} (act : Act got s s') {e : Event} (h : e ∈ s'.log) : e ∈ s.log ∨ Reason got s s' e := by
  have last {e' : Event} (mem : e ∈ s.log ++ [e']) (why : Reason got s s' e') : e ∈ s.log ∨ Reason got s s' e := by
    rcases List.mem_append.mp mem with old | new
    · exact .inl old
    · rw [List.mem_singleton.mp new]
      exact .inr why
  cases act with
  | @aba k l k' l' c act =>
      by_cases old : e ∈ l
      · exact .inl old
      · refine .inr (.aba ((act.events h).resolve_left old) fun tc same => ?_)
        subst same
        exact (act.saved h).resolve_left old
  | @commit fuel env k c l b _ =>
      exact ((Core.commit_frame fuel b ⟨k, c, l, env⟩).events h).imp_right .commit
  | request _ missing => exact last h (.request missing)
  | status msg author verified => exact last h (.status msg author verified)
  | propose high turn cued => exact last h (.proposed high turn cued)
  | process why => exact last h (.process why)
  | twoChain => exact last h .twoChain
  | grant processed origin height _ _ fresh next small =>
      rcases List.mem_append.mp h with h | new
      · exact last h (.voted processed origin height fresh next small)
      · rw [List.mem_singleton.mp new]
        exact .inr (.vote (by simp))
  | @countVote k c l v msg current verified =>
      rcases List.mem_append.mp h with old | new
      · exact .inl old
      · unfold Core.assembledEvents at new
        split at new
        · rename_i added
          rw [List.mem_singleton.mp new]
          exact .inr (.assembled (msg.imp And.left And.left) current verified added)
        · exact absurd new List.not_mem_nil
  | countTimeout msg _ _ verified =>
      rcases List.mem_append.mp h with old | new
      · exact .inl old
      · unfold Core.savedTcs at new
        split at new
        · rename_i added
          rw [List.mem_singleton.mp new]
          exact .inr (.savedTc msg verified added)
        · exact absurd new List.not_mem_nil
  | signTimeout _ leader => exact last h (.timeout leader)
  | nextEpoch _ leader => exact last h (.epochEnd leader)
  | certify | lockVote => exact .inl h

end HotstuffDag
