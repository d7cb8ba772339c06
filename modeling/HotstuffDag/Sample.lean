import HotstuffDag.System

/-! # A committee that runs

Four authorities of stake one, and algorithms small enough for the kernel: the runs on fixed inputs
are made of these. -/

namespace HotstuffDag.Sample
open Library

/-- A polynomial in the bytes, modulo a prime below `2 ^ 256`. -/
def hash (bytes : List UInt8) : Digest :=
  ⟨BitVec.ofNat 256 (bytes.foldl (fun acc b => (acc * 257 + b.toNat + 1) % (2 ^ 256 - 189)) 7)⟩

/-- A signature names its signer and its digest, and all shares of a digest are the same. -/
instance crypto : Crypto where
  sha512 := hash
  sign key digest := ⟨key.array, digest.array⟩
  verify signature digest key := signature.part1 = key.array ∧ signature.part2 = digest.array
  verify_sign := by simp
  signShare _ digest := digest.array.toNat
  verifyShare _ share digest := share = digest.array.toNat
  combineSignatures shares := shares.head?.map fun share => share.2 / 2

/-- No payload reads as a block. The zeros of this transaction are read up to the length of a key, which is zero. -/
instance bincode : Bincode := ⟨fun _ => none, fun p => p.transactions = [List.replicate 40 0]⟩

def key (n : Nat) : PublicKey := ⟨BitVec.ofNat 256 n⟩

/-- Its bytes have an empty text where a block has the proposer of its certificate. -/
def poison (n : Nat) : Payload := Payload.new [List.replicate 40 0] (key n)

def authority (n : Nat) : Authority := ⟨key n, n, 1, "", ""⟩

def four : Committee := ⟨[authority 1, authority 2, authority 3, authority 4], by decide, by decide⟩

/-- Every payload is accepted and no read fails. -/
def env : Env := ⟨10, [], .accept, []⟩

def core (n : Nat) : Core := Core.new (key n) four ⟨500⟩ Map.empty

def start (n : Nat) : Node := Node.start (core n) env

/-- The proposal of a node in its first height. -/
def firstBlock (n : Nat) : Block := Block.new QC.genesis (key n) 1 0 [] []

def voteFor (block : Block) (n : Nat) : Input := .deliver .core (.vote (.new block (key n))) env

def propose (block : Block) : Input := .deliver .core (.propose block) env

def signedObjects (l : List Event) : List Signed :=
  l.filterMap fun
    | .signed x => some x
    | _ => none

theorem mem_signedObjects {l : List Event} {x : Signed} : x ∈ signedObjects l ↔ Event.signed x ∈ l := by
  constructor
  · intro h
    obtain ⟨e, mem, found⟩ := List.mem_filterMap.mp h
    split at found
    · rw [← Option.some.inj found]
      exact mem
    · contradiction
  · exact fun h => List.mem_filterMap.mpr ⟨_, h, rfl⟩

def signedBlocks (l : List Event) : List Block :=
  (signedObjects l).filterMap fun
    | .block b => some b
    | _ => none

theorem mem_signedBlocks {l : List Event} {b : Block} : b ∈ signedBlocks l ↔ Event.signed (.block b) ∈ l := by
  rw [← mem_signedObjects]
  constructor
  · intro h
    obtain ⟨x, mem, found⟩ := List.mem_filterMap.mp h
    split at found
    · rw [← Option.some.inj found]
      exact mem
    · contradiction
  · exact fun h => List.mem_filterMap.mpr ⟨_, h, rfl⟩

def signedVotes (l : List Event) : List Vote :=
  (signedObjects l).filterMap fun
    | .vote v => some v
    | _ => none

theorem mem_signedVotes {l : List Event} {v : Vote} : v ∈ signedVotes l ↔ Event.signed (.vote v) ∈ l := by
  rw [← mem_signedObjects]
  constructor
  · intro h
    obtain ⟨x, mem, found⟩ := List.mem_filterMap.mp h
    split at found
    · rw [← Option.some.inj found]
      exact mem
    · contradiction
  · exact fun h => List.mem_filterMap.mpr ⟨_, h, rfl⟩

def assembledChains (l : List Event) : List PublicKey :=
  l.filterMap fun
    | .assembled chain _ => some chain
    | _ => none

theorem mem_assembledChains {l : List Event} {chain : PublicKey} {qc : QC} (h : Event.assembled chain qc ∈ l) :
    chain ∈ assembledChains l :=
  List.mem_filterMap.mpr ⟨_, h, rfl⟩

/-- The fourth authority is faulty. -/
def system : System where
  committee := four
  ordered _ := four
  perm _ := .refl _
  parameters _ := ⟨500⟩
  env _ := env
  faulty := {key 4}

def coinCalls (l : List Event) : List (Core × Nat) :=
  l.filterMap fun
    | .coinCall core coin => some (core, coin)
    | _ => none

theorem called_of_mem {l : List Event} {core : Core} {coin : Nat} (h : (core, coin) ∈ coinCalls l) :
    Event.coinCall core coin ∈ l := by
  obtain ⟨e, mem, found⟩ := List.mem_filterMap.mp h
  split at found
  · obtain ⟨rfl, rfl⟩ := Prod.mk.inj (Option.some.inj found)
    exact mem
  · contradiction

theorem mem_coinCalls {l : List Event} {core : Core} {coin : Nat} (h : Event.coinCall core coin ∈ l) :
    (core, coin) ∈ coinCalls l :=
  List.mem_filterMap.mpr ⟨_, h, rfl⟩

def proofCalls (l : List Event) : List (Core × ABAProof) :=
  l.filterMap fun
    | .proofCall core proof => some (core, proof)
    | _ => none

theorem mem_proofCalls {l : List Event} {core : Core} {proof : ABAProof} (h : Event.proofCall core proof ∈ l) :
    (core, proof) ∈ proofCalls l :=
  List.mem_filterMap.mpr ⟨_, h, rfl⟩

/-- The coins that have been set, by epoch and round. -/
def coins (l : List Event) : List ((SeqNumber × SeqNumber) × Nat) :=
  l.filterMap fun
    | .coin epoch round coin => some ((epoch, round), coin)
    | _ => none

theorem mem_coins {l : List Event} {epoch round : SeqNumber} {coin : Nat} (h : Event.coin epoch round coin ∈ l) :
    ((epoch, round), coin) ∈ coins l :=
  List.mem_filterMap.mpr ⟨_, h, rfl⟩

/-- The inputs of the agreement, by epoch and round. -/
def abaInputs (l : List Event) : List (SeqNumber × SeqNumber × UInt64) :=
  l.filterMap fun
    | .abaInput epoch round val => some (epoch, round, val)
    | _ => none

theorem mem_abaInputs {l : List Event} {epoch round : SeqNumber} {val : UInt64} (h : Event.abaInput epoch round val ∈ l) :
    (epoch, round, val) ∈ abaInputs l :=
  List.mem_filterMap.mpr ⟨_, h, rfl⟩

def commitCalls (l : List Event) : List (Core × Chain × Block) :=
  l.filterMap fun
    | .commitCall core chain block => some (core, chain, block)
    | _ => none

theorem mem_commitCalls {l : List Event} {core : Core} {chain : Chain} {block : Block}
    (h : Event.commitCall core chain block ∈ l) : (core, chain, block) ∈ commitCalls l :=
  List.mem_filterMap.mpr ⟨_, h, rfl⟩

def epochEnds (l : List Event) : List (Core × Chain × UInt64) :=
  l.filterMap fun
    | .epochEnd core chain output => some (core, chain, output)
    | _ => none

theorem mem_epochEnds {l : List Event} {core : Core} {chain : Chain} {output : UInt64}
    (h : Event.epochEnd core chain output ∈ l) : (core, chain, output) ∈ epochEnds l :=
  List.mem_filterMap.mpr ⟨_, h, rfl⟩

def votedBlocks (l : List Event) : List Block :=
  l.filterMap fun
    | .voted _ b => some b
    | _ => none

theorem mem_votedBlocks {l : List Event} {c : Chain} {b : Block} (h : Event.voted c b ∈ l) : b ∈ votedBlocks l :=
  List.mem_filterMap.mpr ⟨_, h, rfl⟩

def processedBlocks (l : List Event) : List Block :=
  l.filterMap fun
    | .process b => some b
    | _ => none

theorem mem_processedBlocks {l : List Event} {b : Block} (h : Event.process b ∈ l) : b ∈ processedBlocks l :=
  List.mem_filterMap.mpr ⟨_, h, rfl⟩

/-! ## A way into the view change -/

def certify (block : Block) (voters : List Nat) : QC :=
  ⟨block.digest, block.epoch, block.height, block.author,
    voters.map fun n => (key n, (Vote.new block (key n)).signature)⟩

def above (block : Block) : Block := Block.new (certify block [1, 2, 3]) block.author (block.height + 1) 0 [] []

/-- A block of the faulty authority far above the heights of the others, and one on top of it. -/
def far : Block := Block.new QC.genesis (key 4) 12 0 [] []

def farther : Block := Block.new (certify far [1, 2, 4]) (key 4) 13 0 [] []

/-- A timeout certificate in which the faulty authority states the height. -/
def timeoutCertificate (height : SeqNumber) : TC where
  epoch := 0
  votes := [(key 1, (Timeout.new QC.genesis 0 (key 1)).signature, 0),
    (key 2, (Timeout.new QC.genesis 0 (key 2)).signature, 0),
    (key 4, (Timeout.new { QC.genesis with height := height } 0 (key 4)).signature, height)]

def tc (height : SeqNumber) : Input := .deliver .smvba (.tc (timeoutCertificate height)) env

def val (n : Nat) (round : SeqNumber) (value : UInt64) : Input :=
  .deliver .smvba (.abaVal (.new (key n) 0 round value VAL_PHASE)) env

def aux (n : Nat) (round : SeqNumber) (value : UInt64) : Input :=
  .deliver .smvba (.abaVal (.new (key n) 0 round value AUX_PHASE)) env

def share (n : Nat) (round : SeqNumber) : Input := .deliver .smvba (.abaCoinShare (.new 0 round (key n))) env

/-- The two nodes have timed out and enter the agreement with the given inputs. -/
def changing (x y : UInt64) : Trace :=
  [(key 2, tc y), (key 1, tc x), (key 2, propose farther), (key 1, propose farther), (key 2, propose far),
    (key 1, propose far)]

/-- The nodes put in 2, and the first of them outputs it. -/
def unanimous : Trace :=
  [(key 1, share 4 1), (key 1, aux 2 1 2), (key 2, aux 4 1 2), (key 1, aux 4 1 2), (key 2, val 4 1 2),
    (key 2, val 1 1 2), (key 1, val 4 1 2), (key 1, val 2 1 2)] ++ changing 2 2

end HotstuffDag.Sample
