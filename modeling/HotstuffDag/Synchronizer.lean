import HotstuffDag.Core.State

/-! # What a core asks of its synchronizer

The functions of `Synchronizer` that run inside a handler. The task behind `inner_channel` is
modelled in `HotstuffDag.SyncTask`. -/

namespace HotstuffDag.Synchronizer
open Library
variable [Crypto] [Bincode]

/-- `Store::read`; the environment says whether the database fails. -/
def read (digest : Digest) : M (Option Value) := do
  let s ← get
  match s.env.failures with
  | [] => return s.core.store.get? digest
  | failed :: rest =>
      modify fun s => { s with env := { s.env with failures := rest } }
      if failed then error .storeError else return s.core.store.get? digest

/-- `bincode::deserialize` of a stored value as a block. -/
def decodeBlock : Value → Except Exn Block
  | .block b => .ok b
  | .payload p =>
      if Bincode.panicsOn p then .error .panic
      else
        match Bincode.blockOfPayload p with
        | some b => .ok b
        | none => .error (.error .serializationError)

def readBlock (value : Value) : M Block :=
  match decodeBlock value with
  | .ok b => pure b
  | .error e => throw e

def transmit (message : ConsensusMessage) (dest : Option PublicKey) (tag : UInt8) : M Unit := do
  let core ← getCore
  let addresses ← match dest with
    | some name =>
        if tag = HOTSTUFF then do pure [← liftResult (core.committee.address name)]
        else do pure [← liftResult (core.committee.smvbaAddress name)]
    | none =>
        if tag = HOTSTUFF then pure (core.committee.broadcastAddresses core.name)
        else pure (core.committee.smvbaBroadcastAddresses core.name)
  emit (.transmit tag message addresses)

/-- A block that is not in the store is requested from the network. -/
def getBlock (author : PublicKey) (digest : Digest) (block : Option Block) : M (Option Block) := do
  if digest = QC.genesis.hash then return some Block.genesis
  else
    match ← read digest with
    | some value => return some (← readBlock value)
    | none =>
        emit (.request author digest block)
        return none

def getParentBlock (block : Block) : M (Option Block) :=
  getBlock block.author block.parent (some block)

def getAncestors (block : Block) : M (Option (Block × Block)) := do
  match ← getParentBlock block with
  | none => return none
  | some b1 =>
      match ← getParentBlock b1 with
      | none => return none
      | some b0 => return some (b0, b1)

end HotstuffDag.Synchronizer
