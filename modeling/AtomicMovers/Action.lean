import AtomicMovers.BlockGraph
import AtomicMovers.Mover
import AtomicMovers.Substitution

/-!
# Atomic actions

An atomic action is a procedure with a mover type and a body. The assertions its entry block starts
with are its gate: the action fails unless they hold. Once the gate is known, the body only assumes
it.

To speak about two actions side by side, also about an action and itself, an action is kept in two
copies (`Replica`). The primary copy is the body as it stands in the program; the shadow copy has
variables and blocks of its own.
-/

namespace AtomicMovers

/-- One copy of the variables and blocks of an action. -/
structure Replica where
  inputs : List VarRef
  outputs : List VarRef
  locals : List VarRef
  blocks : List BlockRef
  /-- The assertions the entry block started with. -/
  gate : List ExprRef
  deriving DecidableEq, Inhabited

/-- The block where runs start. -/
def Replica.entry (c : Replica) : BlockRef := c.blocks.headD default

structure AtomicAction where
  procedure : ProcRef
  name : String
  mover : Mover
  primary : Replica
  shadow : Replica
  deriving DecidableEq, Inhabited

/-! ## The gate -/

/-- The conditions of the assertions that a list of commands starts with. -/
def gateOf {ε : Type} : List (Command ε) → List ε
  | .assert e :: cs => e :: gateOf cs
  | _ => []

/-- Turns the assertions that a list of commands starts with into assumptions. -/
def assumeGate {ε : Type} : List (Command ε) → List (Command ε)
  | .assert e :: cs => .assume e :: assumeGate cs
  | cs => cs

/-- The gate of a body with the given entry block, which from now on assumes it. -/
def takeGate (entry : BlockRef) : StateM Program (List ExprRef) := do
  let p ← get
  let gate := gateOf (p.block entry).commands
  modify (Program.modifyBlock entry fun b => { b with commands := assumeGate b.commands })
  pure gate

/-! ## The shadow copy -/

/-- Adds a shadow variable for each of `vs`, and returns with them the replacement of references to
`vs` by references to the shadows. -/
def addShadows (vs : List VarRef) : StateM Program (List VarRef × List (VarRef × ExprRef)) := do
  let shadows ← vs.mapM Program.newShadow
  let references ← shadows.mapM fun v => Program.newNode (.var v)
  pure (shadows, vs.zip references)

/-- Renames the conjuncts of a gate. -/
def substGate (σ : TwoState ExprRef) (gate : List ExprRef) : StateM Program (List ExprRef) :=
  Program.onExprs (gate.mapM (ExprTable.subst σ))

/-- Shadow blocks: labels are marked, commands renamed, and a value return returns `true`. -/
def shadowPlan (σ : TwoState ExprRef) : CopyPlan where
  label l := StateCopy.shadow.mark ++ l
  command c := Program.onExprs (ExprTable.substCommand σ c)
  valueReturn := do
    let value ← Program.newExpr .tt
    pure (.returnValue value)

namespace AtomicAction

/-- Adds the shadow copy of `primary`, which belongs to the action `name`. -/
def addShadow (name : String) (primary : Replica) : Build Replica := do
  let (inputs, inputMap) ← addShadows primary.inputs
  let (outputs, outputMap) ← addShadows primary.outputs
  let (locals, localMap) ← addShadows primary.locals
  let σ := TwoState.uniform (Substitution.ofList (inputMap ++ outputMap ++ localMap))
  let gate ← substGate σ primary.gate
  let blocks ← (shadowPlan σ).copyBlocks name primary.blocks
  pure { inputs := inputs, outputs := outputs, locals := locals, blocks := blocks, gate := gate }

/-- The action that `body` makes of a procedure. -/
def ofBody (procedure : ProcRef) (body : Body) (mover : Mover) : Build AtomicAction := do
  let p ← get
  let proc := p.procedure procedure
  if proc.typeParams ≠ [] then
    throw (.typeParameters proc.name)
  match body.blocks with
  | [] => throw (.emptyAction proc.name)
  | entry :: _ =>
    let gate ← takeGate entry
    let primary : Replica :=
      { inputs := proc.inputs, outputs := proc.outputs, locals := body.locals,
        blocks := body.blocks, gate := gate }
    let shadow ← addShadow proc.name primary
    pure { procedure := procedure, name := proc.name, mover := mover, primary := primary,
           shadow := shadow }

/-- The action whose second copy is the primary one as well. -/
def selfPaired (a : AtomicAction) : AtomicAction := { a with shadow := a.primary }

end AtomicAction

end AtomicMovers
