import HotstuffDag.Synchronizer

/-! # Commits

`commit_prev_block` walks a chain from its last committed height, and the chains a leader block
refers to before the block itself. -/

namespace HotstuffDag.Core
open Library
variable [Crypto] [Bincode]

/-- The loop over the references of a leader block; `recurse` commits up to a block on the chain
that is passed along. The copy of the referenced chain is stored only when the recursion succeeds. -/
def commitReferences (recurse : Block → List Block → M (Bool × List Block)) :
    List (PublicKey × Digest) → List Block → M (Bool × List Block)
  | [], toCommit => return (true, toCommit)
  | (_, digest) :: rest, toCommit => do
      match ← Synchronizer.getBlock (← getCore).name digest none with
      | none => return (false, toCommit)
      | some block =>
          let target ← unwrap ((← getCore).pubkeyToChain.get? block.author)
          let ((done, toCommit), target) ← withChain target (recurse block toCommit)
          if done then
            modifyCore fun c => { c with pubkeyToChain := c.pubkeyToChain.insert block.author target }
            commitReferences recurse rest toCommit
          else return (false, toCommit)

def sortReferences (references : List (PublicKey × Digest)) : List (PublicKey × Digest) :=
  references.insertionSort fun a b => a.1 ≤ b.1

/-- A block of the current leader as it is put up: its references are sorted in place. -/
def arranged (core : Core) (current : Block) : Block :=
  if current.author = core.leader then { current with references := sortReferences current.references } else current

/-- Only the blocks of the current leader bring their references along. -/
def commitReferencesOf (recurse : Block → List Block → M (Bool × List Block)) (current : Block)
    (toCommit : List Block) : M (Bool × List Block) := do
  if current.author = (← getCore).leader then
    commitReferences recurse (sortReferences current.references) toCommit
  else return (true, toCommit)

/-- `to_commit` grows at the front. A round of the `while` loop is a call with one unit less of
fuel, and so is the recursion into a referenced chain. -/
def commitPrevBlock : Nat → Block → List Block → M (Bool × List Block)
  | 0, _, _ => throw .outOfFuel
  | fuel + 1, block, toCommit => do
      let chain ← getChain
      if chain.lastCommittedHeight ≥ block.height then return (true, toCommit)
      else
        match chain.heightToDigest.get? (chain.lastCommittedHeight + 1) with
        | none => return (false, toCommit)
        | some digest =>
            let core ← getCore
            match ← Synchronizer.getBlock core.name digest none with
            | none => return (false, toCommit)
            | some _ =>
                let current ← unwrap (← Synchronizer.getBlock core.name digest none)
                let (done, toCommit) ← commitReferencesOf (commitPrevBlock fuel) current toCommit
                if done then
                  modifyChain fun c => { c with lastCommittedHeight := c.lastCommittedHeight + 1 }
                  commitPrevBlock fuel block (core.arranged current :: toCommit)
                else return (false, toCommit)

/-- The blocks leave `to_commit` from the back. -/
def deliver (toCommit : List Block) : M Unit :=
  match toCommit with
  | [] => return ()
  | block :: rest => do
      if block.payload ≠ [] then emit (.mempool (.cleanup block.payload block.height))
      emit (.commit block)
      deliver rest

def commit (fuel : Nat) (block : Block) : M Unit := do
  let s ← get
  emit (.commitCall s.core s.chain block)
  let (_, toCommit) ← commitPrevBlock fuel block []
  deliver toCommit.reverse

end HotstuffDag.Core
