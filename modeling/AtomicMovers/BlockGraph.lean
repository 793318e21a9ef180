import AtomicMovers.Error
import AtomicMovers.Program.Basic

/-!
# Copying a block graph

A copy of a list of blocks is made in two passes. The first makes one new block per listed block, in
order, with its commands. The second gives the new blocks their ends: a goto is redirected to the
copies of its targets, so a goto that leaves the list is an error. What labels, commands and value
returns become is up to a `CopyPlan`.
-/

namespace AtomicMovers

/-- Computations that add to a program and may fail. What was added before a failure stays. -/
abbrev Build := ExceptT Error (StateM Program)

/-- What labels, commands and value returns become in a copy. -/
structure CopyPlan where
  label : String → String
  command : Command ExprRef → StateM Program (Command ExprRef)
  valueReturn : StateM Program Transfer

namespace CopyPlan

/-- Makes the copy of one block, for now without its end. -/
def copyBlock (plan : CopyPlan) (b : BlockRef) : StateM Program BlockRef := do
  let p ← get
  let block := p.block b
  let commands ← block.commands.mapM plan.command
  Program.newBlock { label := plan.label block.label, commands := commands, transfer := .leave }

/-- Makes the copies of all blocks, in order. -/
def copyEach (plan : CopyPlan) (blocks : List BlockRef) : StateM Program (List BlockRef) :=
  blocks.mapM plan.copyBlock

/-- The copies of the targets of a goto in the block `label` of `owner`. -/
def redirect (owner label : String) (copies : List (BlockRef × BlockRef))
    (targets : List BlockRef) : Except Error (List BlockRef) :=
  targets.mapM fun t =>
    match copies.lookup t with
    | some c => .ok c
    | none => .error (.foreignTarget owner label)

/-- The end of the copy of the block `b`. -/
def copyTransfer (plan : CopyPlan) (owner : String) (copies : List (BlockRef × BlockRef))
    (b : BlockRef) : Build Transfer := do
  let p ← get
  let block := p.block b
  match block.transfer with
  | .returnValue _ => plan.valueReturn
  | .goto targets =>
    let targets ← MonadExcept.ofExcept (redirect owner block.label copies targets)
    pure (.goto targets)
  | .leave => pure .leave

/-- Copies the blocks of the action named `owner`. The copy of a block listed twice is, for gotos, the
later one. -/
def copyBlocks (plan : CopyPlan) (owner : String) (blocks : List BlockRef) :
    Build (List BlockRef) := do
  let clones ← plan.copyEach blocks
  let pairs := blocks.zip clones
  pairs.forM fun (b, clone) => do
    let transfer ← plan.copyTransfer owner pairs.reverse b
    modify (Program.setTransfer clone transfer)
  pure clones

end CopyPlan

end AtomicMovers
