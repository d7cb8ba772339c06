import HotstuffDag.Library.Map
import HotstuffDag.Messages
import Mathlib.Data.List.Sort

/-! # Vote aggregation

A maker counts the stake of the authors it has heard and cuts a certificate when the stake
reaches a threshold. -/

namespace HotstuffDag
open Library
variable [Crypto]

def INIT_PHASE : UInt8 := 0
def VAL_PHASE : UInt8 := 1
def AUX_PHASE : UInt8 := 2
def COIN_PHASE : UInt8 := 3

/-- The fields that the four makers share. -/
structure Maker (Entry : Type) where
  weight : Nat
  votes : List Entry
  used : List PublicKey
  deriving Repr, DecidableEq

namespace Maker
variable {Entry : Type}

def new : Maker Entry := ⟨0, [], []⟩

/-- Record an entry of an author that has not been heard yet. -/
def push (maker : Maker Entry) (author : PublicKey) (entry : Entry) (stake : Nat) : Maker Entry :=
  ⟨maker.weight + stake, maker.votes ++ [entry], author :: maker.used⟩

/-- `self.weight = 0` -/
def reset (maker : Maker Entry) : Maker Entry := { maker with weight := 0 }

end Maker

abbrev QCMaker := Maker (PublicKey × Signature)
abbrev TCMaker := Maker (PublicKey × Signature × SeqNumber)
abbrev ABAProofMaker := Maker (PublicKey × Signature)
abbrev ABARandomCoinMaker := Maker RandomnessShare

namespace QCMaker

def append (maker : QCMaker) (vote : Vote) (committee : Committee) :
    ConsensusResult (Option QC) × QCMaker :=
  if vote.author ∈ maker.used then (.error (.authorityReuseinQC vote.author), maker)
  else
    let maker := maker.push vote.author (vote.author, vote.signature) (committee.stake vote.author)
    if maker.weight ≥ committee.quorumThreshold then
      (.ok (some ⟨vote.hash, vote.epoch, vote.height, vote.proposer, maker.votes⟩), maker.reset)
    else (.ok none, maker)

end QCMaker

namespace TCMaker

def append (maker : TCMaker) (timeout : Timeout) (committee : Committee) :
    ConsensusResult (Option TC) × TCMaker :=
  if timeout.author ∈ maker.used then (.error (.authorityReuseinTC timeout.author), maker)
  else
    let maker := maker.push timeout.author
      (timeout.author, timeout.signature, timeout.highQc.height) (committee.stake timeout.author)
    if maker.weight ≥ committee.quorumThreshold then
      (.ok (some ⟨timeout.epoch, maker.votes⟩), maker.reset)
    else (.ok none, maker)

end TCMaker

namespace ABAProofMaker

def append (maker : ABAProofMaker) (abaVal : ABAVal) (committee : Committee) :
    ConsensusResult (Option ABAProof) × ABAProofMaker :=
  if abaVal.author ∈ maker.used then
    (.error (.authorityReuseinABA abaVal.author abaVal.phase), maker)
  else
    let maker := maker.push abaVal.author (abaVal.author, abaVal.signature)
      (committee.stake abaVal.author)
    let proof (tag : Bool) : ABAProof :=
      ⟨abaVal.epoch, abaVal.round, abaVal.val, abaVal.phase, maker.votes, tag⟩
    if maker.weight ≥ committee.quorumThreshold then (.ok (some (proof false)), maker.reset)
    else if maker.weight = committee.randomCoinThreshold ∧ abaVal.phase = VAL_PHASE then
      (.ok (some (proof true)), maker)
    else (.ok none, maker)

end ABAProofMaker

namespace ABARandomCoinMaker

/-- The shares by committee id, in the order of the `BTreeMap`; `committee.id` finds every author,
since `handle_coin_share` has verified the shares. -/
def sigs (committee : Committee) (shares : List RandomnessShare) : List (Nat × SignatureShare) :=
  let byId := shares.foldl (fun (m : Map Nat SignatureShare) share =>
    match committee.id share.author with
    | some id => m.insert id share.signatureShare
    | none => m) Map.empty
  byId.entries.insertionSort fun a b => a.1 ≤ b.1

def append (maker : ABARandomCoinMaker) (share : RandomnessShare) (committee : Committee) :
    ConsensusResult (Option Nat) × ABARandomCoinMaker :=
  if share.author ∈ maker.used then (.error (.authorityReuseinCoin share.author), maker)
  else
    let maker := maker.push share.author share (committee.stake share.author)
    if maker.weight = committee.randomCoinThreshold then
      match Crypto.combineSignatures (sigs committee maker.votes) with
      | some signature => (.ok (some (signature % 2)), maker)
      | none => (.ok none, maker)
    else (.ok none, maker)

end ABARandomCoinMaker

structure Aggregator where
  votesAggregators : Map SeqNumber QCMaker
  timeoutsAggregators : Map SeqNumber TCMaker
  abaValsAggregators : Map (SeqNumber × SeqNumber × UInt8 × UInt64) ABAProofMaker
  abaRandomcoinAggregators : Map (SeqNumber × SeqNumber) ABARandomCoinMaker
  deriving Repr, DecidableEq

namespace Aggregator

def new : Aggregator := ⟨Map.empty, Map.empty, Map.empty, Map.empty⟩

def addVote (a : Aggregator) (vote : Vote) (committee : Committee) :
    ConsensusResult (Option QC) × Aggregator :=
  let (result, maker) :=
    QCMaker.append (a.votesAggregators.getD vote.height Maker.new) vote committee
  (result, { a with votesAggregators := a.votesAggregators.insert vote.height maker })

def addTimeout (a : Aggregator) (timeout : Timeout) (committee : Committee) :
    ConsensusResult (Option TC) × Aggregator :=
  let (result, maker) :=
    TCMaker.append (a.timeoutsAggregators.getD timeout.epoch Maker.new) timeout committee
  (result, { a with timeoutsAggregators := a.timeoutsAggregators.insert timeout.epoch maker })

def addAbaVal (a : Aggregator) (abaVal : ABAVal) (committee : Committee) :
    ConsensusResult (Option ABAProof) × Aggregator :=
  let key := (abaVal.epoch, abaVal.round, abaVal.phase, abaVal.val)
  let (result, maker) :=
    ABAProofMaker.append (a.abaValsAggregators.getD key Maker.new) abaVal committee
  (result, { a with abaValsAggregators := a.abaValsAggregators.insert key maker })

def addAbaRandom (a : Aggregator) (share : RandomnessShare) (committee : Committee) :
    ConsensusResult (Option Nat) × Aggregator :=
  let key := (share.epoch, share.round)
  let (result, maker) :=
    ABARandomCoinMaker.append (a.abaRandomcoinAggregators.getD key Maker.new) share committee
  (result, { a with abaRandomcoinAggregators := a.abaRandomcoinAggregators.insert key maker })

def cleanup (a : Aggregator) (epoch height : SeqNumber) : Aggregator :=
  { a with
    votesAggregators := a.votesAggregators.retain fun k => k ≥ height
    timeoutsAggregators := a.timeoutsAggregators.retain fun k => k ≥ epoch }

def cleanupAba (a : Aggregator) (epoch : SeqNumber) : Aggregator :=
  { a with
    abaValsAggregators := a.abaValsAggregators.retain fun k => k.1 ≥ epoch
    abaRandomcoinAggregators := a.abaRandomcoinAggregators.retain fun k => k.1 ≥ epoch }

end Aggregator
end HotstuffDag
