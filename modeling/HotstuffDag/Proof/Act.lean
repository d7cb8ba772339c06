import HotstuffDag.Core.Run

/-! # The acts of a core

What a handler does is a sequence of acts. An act changes a few fields and appends to the log, and
it carries the guards under which the code performs it, so that an invariant is checked against
each act once and not against each path through the handlers. -/

namespace HotstuffDag
open Library
variable [Crypto] [Bincode]

/-- The part of a state that acts change. -/
structure Conf where
  core : Core
  chain : Chain
  log : List Event

def State.conf (s : State) : Conf := ⟨s.core, s.chain, s.log⟩

/-- The message was handed to the network. -/
def Sent (message : ConsensusMessage) (log : List Event) : Prop :=
  ∃ tag addresses, Event.transmit tag message addresses ∈ log

/-- The digest is that of the genesis, or it is stored with bytes that read as the block. -/
def Fetched (store : Store) (digest : Digest) (block : Block) : Prop :=
  (digest = QC.genesis.hash ∧ block = Block.genesis) ∨
    ∃ value, store.get? digest = some value ∧ Synchronizer.decodeBlock value = .ok block

/-! ## What acts do to a chain -/

namespace Chain

def advance (c : Chain) (epoch height : SeqNumber) : Chain :=
  if height < c.height then c
  else { c with height := height + 1, aggregator := c.aggregator.cleanup epoch (height + 1) }

def update (c : Chain) (qc : QC) : Chain :=
  { c with
    heightToDigest := c.heightToDigest.insert qc.height qc.hash
    highQc := if qc.height > c.highQc.height then qc else c.highQc }

def certify (c : Chain) (epoch : SeqNumber) (qc : QC) : Chain := (c.advance epoch qc.height).update qc

def lockVote (c : Chain) (height : SeqNumber) : Chain :=
  { c with lastVotedHeight := if c.lastVotedHeight < height then height else c.lastVotedHeight }

def countVote (c : Chain) (committee : Committee) (vote : Vote) : Chain :=
  { c with aggregator := (c.aggregator.addVote vote committee).2 }

def countTimeout (c : Chain) (committee : Committee) (timeout : Timeout) : Chain :=
  { c with aggregator := (c.aggregator.addTimeout timeout committee).2 }

def restart (c : Chain) (output : SeqNumber) : Chain :=
  { c with
    heightToDigest := c.heightToDigest.retain fun k => k > output
    highQc := QC.genesis
    epoch := c.epoch + 1
    height := output + NEXT_EPOCH_HEIGHT
    lastCommittedHeight := output + NEXT_EPOCH_HEIGHT - 1 }

end Chain

/-! ## What acts do to a core -/

namespace Core

def hold (k : Core) (block : Block) : Core :=
  { k with store := k.store.insert block.digest (.block block) }

def keepTc (k : Core) (tc : TC) : Core := { k with tcCache := k.tcCache.insert tc.epoch tc }

/-- The certificate a timeout completes is kept. -/
def keptTc (m : Map SeqNumber TC) : ConsensusResult (Option TC) → Map SeqNumber TC
  | .ok (some tc) => m.insert tc.epoch tc
  | _ => m

def keepAssembledTc (k : Core) (result : ConsensusResult (Option TC)) : Core :=
  { k with tcCache := keptTc k.tcCache result }

/-- The events of the certificate that a timeout completes. -/
def savedTcs : ConsensusResult (Option TC) → List Event
  | .ok (some tc) => [.savedTc tc]
  | _ => []

/-- The certificate a value completes is kept if it is of the wanted sort. -/
def keptProof (wanted : ABAProof → Bool) (m : Map (SeqNumber × SeqNumber) ABAProof) :
    ConsensusResult (Option ABAProof) → Map (SeqNumber × SeqNumber) ABAProof
  | .ok (some proof) => if wanted proof then m.insert (proof.epoch, proof.round) proof else m
  | _ => m

def keptCoin (m : Map (SeqNumber × SeqNumber) Nat) (share : RandomnessShare) :
    ConsensusResult (Option Nat) → Map (SeqNumber × SeqNumber) Nat
  | .ok (some coin) => m.insert (share.epoch, share.round) coin
  | _ => m

def hearVal (k : Core) (v : ABAVal) : Core :=
  let added := k.aggregator.addAbaVal v k.committee
  { k with
    aggregator := added.2
    abaValPhaseCache1 := keptProof (fun proof => proof.tag) k.abaValPhaseCache1 added.1
    abaValPhaseCache2 := keptProof (fun proof => !proof.tag) k.abaValPhaseCache2 added.1 }

def hearAux (k : Core) (v : ABAVal) : Core :=
  let added := k.aggregator.addAbaVal v k.committee
  { k with
    aggregator := added.2
    auxValueNums := k.auxValueNums.insert (v.epoch, v.round) (k.auxValueNums.getD (v.epoch, v.round) 0 + 1)
    abaAuxPhaseCache := keptProof (fun _ => true) k.abaAuxPhaseCache added.1 }

/-- The events of a value that is counted. -/
def abaEvents (k : Core) (v : ABAVal) : List Event :=
  match (k.aggregator.addAbaVal v k.committee).1 with
  | .ok (some proof) => [.assembledAba proof]
  | _ => []

def hearShare (k : Core) (share : RandomnessShare) : Core :=
  let added := k.aggregator.addAbaRandom share k.committee
  { k with
    aggregator := added.2
    abaCoinCache := keptCoin k.abaCoinCache share added.1 }

def coinEvents (k : Core) (share : RandomnessShare) : List Event :=
  match (k.aggregator.addAbaRandom share k.committee).1 with
  | .ok (some coin) => [.coin share.epoch share.round coin]
  | _ => []

def hearProof (k : Core) (proof : ABAProof) : Core :=
  { k with abaProofCache := k.abaProofCache.insert (proof.epoch, proof.round) proof }

def takeInput (k : Core) (round : SeqNumber) (val : UInt64) : Core :=
  { k with abaInputVal := k.abaInputVal.insert round val }

def nextRound (k : Core) (val : UInt64) : Core :=
  let round := k.abaRound + 1
  { k with
    abaRound := round
    phase := VAL_PHASE
    abaInputVal := k.abaInputVal.insert round val
    valValueBroadcasted := false
    auxValueBroadcasted := false
    coinShareBroadcasted := false
    auxProofBroadcasted := false
    binValues := []
    abaValPhaseCache1 := retainRound k.abaValPhaseCache1 k.epoch round
    abaValPhaseCache2 := retainRound k.abaValPhaseCache2 k.epoch round
    abaAuxPhaseCache := retainRound k.abaAuxPhaseCache k.epoch round
    auxValueNums := retainRound k.auxValueNums k.epoch round
    abaProofCache := retainRound k.abaProofCache k.epoch round }

def nextEpoch (k : Core) : Core :=
  let epoch := k.epoch + 1
  { k with
    epoch := epoch
    isViewChange := false
    tcProcessed := false
    valValueBroadcasted := false
    auxValueBroadcasted := false
    coinShareBroadcasted := false
    auxProofBroadcasted := false
    aggregator := k.aggregator.cleanupAba epoch
    binValues := []
    abaRound := 1
    phase := INIT_PHASE
    abaOutputVal := none
    abaInputVal := Map.empty
    tcCache := k.tcCache.retain fun n => n ≥ epoch
    abaValPhaseCache1 := k.abaValPhaseCache1.retain fun n => n.1 ≥ epoch
    abaValPhaseCache2 := k.abaValPhaseCache2.retain fun n => n.1 ≥ epoch
    abaAuxPhaseCache := k.abaAuxPhaseCache.retain fun n => n.1 ≥ epoch
    abaCoinCache := k.abaCoinCache.retain fun n => n.1 ≥ epoch
    auxValueNums := k.auxValueNums.retain fun n => n.1 ≥ epoch
    abaProofCache := k.abaProofCache.retain fun n => n.1 ≥ epoch }

end Core

/-! ## Acts of the agreement -/

/-- The events that no invariant of a node reads. -/
def Event.quiet : Event → Prop
  | .transmit _ (.abaVal _) _ | .transmit _ (.abaProof _) _ => False
  | .transmit _ _ _ | .mempool _ | .signed (.abaVal _) => True
  | _ => False

/-- Why `process_coin_share` outputs a value. -/
def CoinOutput (k : Core) (coin : Nat) (val : UInt64) : Prop :=
  val % 2 = UInt64.ofNat coin ∧
    (k.binValues = [val] ∨
      (∀ v, k.binValues ≠ [v]) ∧ ∃ proof, k.abaAuxPhaseCache.get? (k.epoch, k.abaRound) = some proof ∧
        proof.val = val)

/-- Why `process_coin_share` goes on with a value. -/
def CoinInput (k : Core) (coin : Nat) (val : UInt64) : Prop :=
  (k.binValues = [val] ∧ val % 2 ≠ UInt64.ofNat coin) ∨
    (∀ v, k.binValues ≠ [v]) ∧ val = UInt64.ofNat coin ∧
      ∀ proof, k.abaAuxPhaseCache.get? (k.epoch, k.abaRound) = some proof →
        proof.val % 2 ≠ UInt64.ofNat coin

/-- The acts that leave the chains alone. `got` holds of the messages received. -/
inductive AbaAct (got : ConsensusMessage → Prop) : Core → List Event → Core → List Event → Prop
  | quiet {k l e} (h : Event.quiet e) : AbaAct got k l k (l ++ [e])
  | keepTc {k l tc} (msg : got (.tc tc)) (current : ¬ tc.epoch < k.epoch)
      (verified : tc.verify k.committee = .ok ()) : AbaAct got k l (k.keepTc tc) (l ++ [.savedTc tc])
  | hearVal {k l v} (msg : got (.abaVal v) ∨ Sent (.abaVal v) l)
      (current : k.isExpiredAbaMessage v.epoch v.round = false) (phase : v.phase = VAL_PHASE)
      (verified : v.verify = .ok ()) : AbaAct got k l (k.hearVal v) (l ++ k.abaEvents v)
  | hearAux {k l v} (msg : got (.abaVal v) ∨ Sent (.abaVal v) l)
      (current : k.isExpiredAbaMessage v.epoch v.round = false) (phase : v.phase = AUX_PHASE)
      (verified : v.verify = .ok ()) : AbaAct got k l (k.hearAux v) (l ++ k.abaEvents v)
  | hearShare {k l share} (msg : got (.abaCoinShare share) ∨ Sent (.abaCoinShare share) l)
      (current : k.isExpiredAbaMessage share.epoch share.round = false)
      (verified : share.verify k.committee = .ok ()) :
      AbaAct got k l (k.hearShare share) (l ++ k.coinEvents share)
  | hearProof {k l proof} (msg : got (.abaProof proof))
      (current : k.isExpiredAbaMessage proof.epoch proof.round = false)
      (verified : proof.verify k.committee = .ok ()) : AbaAct got k l (k.hearProof proof) l
  | takeInput {k l tc val} (fresh : k.tcProcessed = false)
      (cached : k.tcCache.get? k.epoch = some tc) (highest : tc.highQcRounds.max? = some val) :
      AbaAct got k l (k.takeInput 1 val) (l ++ [.abaInput k.epoch 1 val])
  | castInput {k l tag addresses round val} (taken : Event.abaInput k.epoch round val ∈ l)
      (held : k.abaInputVal.get? round = some val) (current : round = 1 ∨ round = k.abaRound) :
      AbaAct got k l k
        (l ++ [.transmit tag (.abaVal (.new k.name k.epoch round val VAL_PHASE)) addresses])
  | amplify {k l tag addresses proof} (fresh : k.valValueBroadcasted = false)
      (cached : k.abaValPhaseCache1.get? (k.epoch, k.abaRound) = some proof)
      (other : k.abaInputVal.get? proof.round ≠ some proof.val) :
      AbaAct got k l { k with valValueBroadcasted := true }
        (l ++ [.transmit tag
          (.abaVal (.new k.name proof.epoch proof.round proof.val proof.phase)) addresses])
  | castAux {k l tag addresses proof} (fresh : k.auxValueBroadcasted = false) (bin : k.binValues ≠ [])
      (cached : k.abaValPhaseCache2.get? (k.epoch, k.abaRound) = some proof) :
      AbaAct got k l { k with auxValueBroadcasted := true }
        (l ++ [.transmit tag
          (.abaVal (.new k.name proof.epoch proof.round proof.val AUX_PHASE)) addresses])
  | accept {k l proof} (cached : k.abaValPhaseCache2.get? (k.epoch, k.abaRound) = some proof) :
      AbaAct got k l { k with binValues := k.binValues.insert proof.val }
        (l ++ [.binValue k.epoch k.abaRound proof.val])
  | shareCast {k l} : AbaAct got k l { k with coinShareBroadcasted := true } l
  | castProof {k l k₀ coin val tag addresses proof} (called : Event.coinCall k₀ coin ∈ l)
      (output : Event.abaOutput k₀.epoch k₀.abaRound val ∈ l) (why : CoinOutput k₀ coin val)
      (cached : k₀.abaAuxPhaseCache.get? (k₀.epoch, k₀.abaRound) = some proof) :
      AbaAct got k l { k with auxProofBroadcasted := true } (l ++ [.transmit tag (.abaProof proof) addresses])
  | callCoin {k l coin} (phase : k.phase ≥ COIN_PHASE)
      (cached : k.abaCoinCache.get? (k.epoch, k.abaRound) = some coin) :
      AbaAct got k l k (l ++ [.coinCall k coin])
  | callProof {k l proof} (cached : k.abaProofCache.get? (k.epoch, k.abaRound) = some proof) :
      AbaAct got k l k (l ++ [.proofCall k proof])
  | outputCoin {k l coin val} (called : Event.coinCall k coin ∈ l)
      (cached : k.abaCoinCache.get? (k.epoch, k.abaRound) = some coin) (why : CoinOutput k coin val) :
      AbaAct got k l { k with abaOutputVal := some val } (l ++ [.abaOutput k.epoch k.abaRound val])
  | outputProof {k l proof coin} (called : Event.proofCall k proof ∈ l)
      (cached : k.abaProofCache.get? (k.epoch, k.abaRound) = some proof)
      (coined : k.abaCoinCache.get? (proof.epoch, proof.round) = some coin)
      (parity : proof.val % 2 = UInt64.ofNat coin) :
      AbaAct got k l { k with abaOutputVal := some proof.val }
        (l ++ [.abaOutput k.epoch k.abaRound proof.val])
  | nextRound {k l coin val} (called : Event.coinCall k coin ∈ l) (phase : k.phase ≥ COIN_PHASE)
      (cached : k.abaCoinCache.get? (k.epoch, k.abaRound) = some coin) (why : CoinInput k coin val)
      (small : k.abaRound.toNat + 1 < 2 ^ 64) :
      AbaAct got k l (k.nextRound val) (l ++ [.abaInput k.epoch (k.abaRound + 1) val] ++
        [.signed (.abaVal (.new k.name k.epoch (k.abaRound + 1) val VAL_PHASE))])
  | tcProcessed {k l} (taken : (k.abaInputVal.get? 1).isSome) : AbaAct got k l { k with tcProcessed := true } l
  | enterVal {k l} (phase : k.phase = INIT_PHASE) (processed : k.tcProcessed = true) :
      AbaAct got k l { k with phase := VAL_PHASE } l
  | enterAux {k l} (phase : k.phase = VAL_PHASE) (bin : k.binValues ≠ []) :
      AbaAct got k l { k with phase := AUX_PHASE } l
  | countAux {k l} :
      AbaAct got k l { k with auxValueNums := k.auxValueNums.orInsert (k.epoch, k.abaRound) 0 } l
  | enterCoin {k l} (phase : k.phase = AUX_PHASE)
      (coined : k.abaCoinCache.contains (k.epoch, k.abaRound) = true)
      (counted : k.auxValueNums.getD (k.epoch, k.abaRound) 0 ≥ k.committee.quorumThreshold)
      (ready : k.binValues.length = 2 ∨ k.abaAuxPhaseCache.contains (k.epoch, k.abaRound) = true) :
      AbaAct got k l { k with phase := COIN_PHASE } (l ++ [.coinPhase k])
  | enterViewChange {k l} : AbaAct got k l { k with isViewChange := true } l

/-! ## Acts on a chain -/

/-- How a block comes to `process_block` with the chain `c`. -/
inductive Origin (got : ConsensusMessage → Prop) (k : Core) (c : Chain) (l : List Event) (b : Block) : Prop
  | own (signed : Event.signed (.block b) ∈ l) (author : b.author = k.name)
      (turn : c.name = k.name ∨ ∃ qc, Event.assembled c.name qc ∈ l)
  | proposal (msg : got (.propose b) ∨ got (.syncReply b)) (author : b.author = c.name)
      (verified : b.verify k.committee = .ok ()) (accepted : Event.payloadStatus b .accept ∈ l)
  | loopBack (msg : got (.loopBack b)) (author : b.author = c.name)

/-- Where a certificate that `process_qc` takes comes from. -/
inductive Certified (got : ConsensusMessage → Prop) (k : Core) (c : Chain) (l : List Event) : QC → Prop
  | proposal {b : Block} (msg : got (.propose b) ∨ got (.syncReply b)) (author : b.author = c.name)
      (verified : b.verify k.committee = .ok ()) : Certified got k c l b.qc
  | timeout {t : Timeout} (msg : got (.timeout t) ∨ Event.signed (.timeout t) ∈ l)
      (leader : k.committee.getLeader t.epoch = c.name) (current : ¬ t.epoch < k.epoch)
      (verified : t.verify k.committee = .ok ()) : Certified got k c l t.highQc
  | assembled {qc : QC} (event : Event.assembled c.name qc ∈ l) : Certified got k c l qc

/-- Why a block is committed. -/
inductive CommitReason (k : Core) (c : Chain) (l : List Event) (b0 : Block) : Prop
  | twoChain {b b1 : Block} (event : Event.twoChain k c b b0 b1 ∈ l)
  | output {val : UInt64} {digest : Digest} (changing : k.isViewChange = true)
      (output : k.abaOutputVal = some val) (certified : c.heightToDigest.get? val = some digest)
      (fetched : Fetched k.store digest b0)

/-- A request for the payload of a proposal. -/
def Event.isGet : Event → Bool
  | .mempool (.get _) => true
  | _ => false

/-- The last event, requests for payloads aside. -/
def cue (l : List Event) : Option Event := (l.filter fun e => !e.isGet).getLast?

/-- What a proposal on the chain follows. -/
inductive Cued (c : Chain) (l : List Event) : Prop
  | start (first : cue l = none)
  | certified {qc : QC} (last : cue l = some (.assembled c.name qc)) (above : qc.height < c.height)
  | ended {k' : Core} {c' : Chain} {val : UInt64} (last : cue l = some (.epochEnd k' c' val)) (same : c'.name = c.name)

inductive Act (got : ConsensusMessage → Prop) : Conf → Conf → Prop
  | aba {k l k' l' c} (act : AbaAct got k l k' l') : Act got ⟨k, c, l⟩ ⟨k', c, l'⟩
  | request {k c l author digest block} (proper : digest ≠ QC.genesis.hash) (missing : k.store.get? digest = none)
      (why : ∀ b, block = some b → b.parent = digest ∧ (Event.process b ∈ l ∨
        ∃ b', Event.process b' ∈ l ∧ Fetched k.store b'.parent b)) :
      Act got ⟨k, c, l⟩ ⟨k, c, l ++ [.request author digest block]⟩
  | status {k c l b status} (msg : got (.propose b) ∨ got (.syncReply b)) (author : b.author = c.name)
      (verified : b.verify k.committee = .ok ()) : Act got ⟨k, c, l⟩ ⟨k, c, l ++ [.payloadStatus b status]⟩
  | certify {k c l qc} (why : Certified got k c l qc) (small : qc.height.toNat + 1 < 2 ^ 64 ∨ qc.height < c.height) :
      Act got ⟨k, c, l⟩ ⟨k, c.certify k.epoch qc, l⟩
  | propose {k c l qc payload} (high : qc = QC.genesis ∨ qc = c.highQc)
      (turn : c.name = k.name ∨ ∃ qc, Event.assembled c.name qc ∈ l) (cued : Cued c l) :
      Act got ⟨k, c, l⟩
        ⟨k, c, l ++ [.signed (.block (.new qc k.name c.height c.epoch payload (k.references c)))]⟩
  | process {k c l b} (why : Origin got k c l b) : Act got ⟨k, c, l⟩ ⟨k.hold b, c, l ++ [.process b]⟩
  | twoChain {k c l b b0 b1} (processed : Event.process b ∈ l) (author : b.author = k.leader)
      (waiting : k.isViewChange = false) (old : b.epoch ≤ c.epoch) (leader : k.leader = b0.author)
      (parent : Fetched k.store b.parent b1) (grandparent : Fetched k.store b1.parent b0)
      (next : b0.height + 1 = b1.height) (small : b0.height.toNat + 1 < 2 ^ 64) :
      Act got ⟨k, c, l⟩ ⟨k, c, l ++ [.twoChain k c b b0 b1]⟩
  | commit {fuel env k c l b} (why : CommitReason k c l b) :
      Act got ⟨k, c, l⟩ (Exec.final (Core.commit fuel b) ⟨k, c, l, env⟩).conf
  | grant {k c l b} (processed : Event.process b ∈ l)
      (origin : b.author = c.name ∨ b.author = k.name ∧ ∃ qc, Event.assembled c.name qc ∈ l)
      (height : b.height = c.height ∨ b.qc.eq QC.genesis = true) (epoch : ¬ c.epoch > b.epoch)
      (leader : ¬ (k.isViewChange = true ∧ b.author = k.leader)) (fresh : b.height > c.lastVotedHeight)
      (next : b.qc.height + 1 = b.height ∨ b.qc.eq QC.genesis = true)
      (small : b.qc.height.toNat + 1 < 2 ^ 64) :
      Act got ⟨k, c, l⟩ ⟨k, c.lockVote b.height, l ++ [.voted c b] ++ [.signed (.vote (.new b k.name))]⟩
  | countVote {k c l v} (msg : got (.vote v) ∧ v.proposer = c.name ∨
        Event.signed (.vote v) ∈ l ∧ v.author = k.name ∧ v.proposer = k.name)
      (current : ¬ v.height < c.height) (verified : v.verify k.committee = .ok ()) :
      Act got ⟨k, c, l⟩ ⟨k, c.countVote k.committee v,
        l ++ Core.assembledEvents c.name (c.aggregator.addVote v k.committee).1⟩
  | countTimeout {k c l t} (msg : got (.timeout t) ∨ Event.signed (.timeout t) ∈ l)
      (leader : k.committee.getLeader t.epoch = c.name) (current : ¬ t.epoch < k.epoch)
      (verified : t.verify k.committee = .ok ()) :
      Act got ⟨k, c, l⟩
        ⟨k.keepAssembledTc (c.aggregator.addTimeout t k.committee).1, c.countTimeout k.committee t,
          l ++ Core.savedTcs (c.aggregator.addTimeout t k.committee).1⟩
  | lockVote {k c l} (changing : k.isViewChange = true) (leader : c.name = k.leader) :
      Act got ⟨k, c, l⟩ ⟨k, c.lockVote c.height, l⟩
  | signTimeout {k c l} (changing : k.isViewChange = true) (leader : c.name = k.leader) :
      Act got ⟨k, c, l⟩ ⟨k, c, l ++ [.signed (.timeout (.new c.highQc k.epoch k.name))]⟩
  | nextEpoch {k c l val digest b} (changing : k.isViewChange = true) (leader : c.name = k.leader)
      (output : k.abaOutputVal = some val) (certified : c.heightToDigest.get? val = some digest)
      (fetched : Fetched k.store digest b) (small : k.epoch.toNat + 1 < 2 ^ 64)
      (smallChain : c.epoch.toNat + 1 < 2 ^ 64) (smallHeight : val.toNat + 10 < 2 ^ 64) :
      Act got ⟨k, c, l⟩ ⟨k.nextEpoch, c.restart val, l ++ [.epochEnd k c val]⟩

/-- Any number of acts. -/
abbrev Acts (got : ConsensusMessage → Prop) : Conf → Conf → Prop := Relation.ReflTransGen (Act got)

end HotstuffDag
