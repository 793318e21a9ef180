import AtomicMovers.Transition.Path

/-!
# Transition relations

The formula that relates the state before and the state after an action: it holds of two states if
some completing run leads from the one to the other. Under `old` it reads the state before.

It is made of entries of the table of expressions while the completing paths are searched
(`Program.search`): whenever a path completes, its condition becomes a disjunct. What was entered
before the search fails stays.

The condition of one path is computed backwards. It starts with "nothing has changed since" over the
globals and outputs (the frame). Going back over an assumption adds that it held, and going back over
an assignment replaces, under `old`, the assigned variables by their new values. Local variables are
bound existentially in the end.
-/

namespace AtomicMovers

namespace Program

/-! ## Conditions of paths -/

/-- The variable has the value it had before. -/
def newUnchanged (v : VarRef) : StateM Program ExprRef := do
  let current ← newNode (.var v)
  let prior ← newNode (.var v)
  let prior ← newNode (.old prior)
  newNode (.binary .eq current prior)

/-- The condition that leads through a command of the block `label` to `after`. There is none that
leads through an assertion. -/
def newBackwards (label : String) (after : ExprRef) : Command ExprRef → Build ExprRef
  | .assert _ => throw (.unsupportedAssert label)
  | .assume e => do
    let assumption ← newNode (.old e)
    newNode (.binary .and assumption after)
  | .assign updates =>
    liftM (onExprs (ExprTable.subst (.inPrior (Substitution.ofList updates)) after))

/-- The condition that leads through a block to `after`. -/
def newBlockCondition (after : ExprRef) (b : BlockRef) : Build ExprRef := do
  let p ← get
  let block := p.block b
  block.commands.foldrM (fun c after => newBackwards block.label after c) after

/-- The condition that a run along the path relates two states. -/
def newPathCondition (frame : List VarRef) (path : Path) : Build ExprRef := do
  let start ← newConjunction newUnchanged frame
  path.foldlM newBlockCondition start

/-! ## The search -/

/-- Adds to `relation` the conditions of the completing continuations of `path` at the block `b`. A
value return continues at the block `next`, if there is one, and completes the path otherwise. The
path never repeats a block, so its length bounds the depth of the search. -/
def search (frame : List VarRef) :
    Nat → Option BlockRef → Path → BlockRef → ExprRef → Build ExprRef
  | 0, _, _, b, _ => do
    let p ← get
    throw (.cyclicAction (p.block b).label)
  | depth + 1, next, path, b, relation => do
    let p ← get
    let block := p.block b
    if b ∈ path then throw (.cyclicAction block.label)
    else
      match block.transfer with
      | .returnValue _ =>
        match next with
        | some entry => search frame depth none (b :: path) entry relation
        | none => do
          let condition ← newPathCondition frame (b :: path)
          newNode (.binary .or relation condition)
      | .goto targets =>
        targets.foldlM (fun relation t => search frame depth next (b :: path) t relation) relation
      | .leave => throw (.unrecognizedTransfer block.label)

end Program

/-! ## Bound variables -/

/-- A variable, the new quantified one that takes its place, and an expression that refers to this. -/
structure Binding where
  original : VarRef
  bound : VarRef
  reference : ExprRef

namespace Binding

/-- The variable with the one that takes its place. -/
def pair (b : Binding) : VarRef × VarRef := (b.original, b.bound)

/-- The variable with what references to it are replaced by. -/
def replacement (b : Binding) : VarRef × ExprRef := (b.original, b.reference)

end Binding

namespace Program

/-- A new quantified variable in the place of `v`, in the state copy `copy`. -/
def newBinding (copy : StateCopy) (v : VarRef) : StateM Program Binding := do
  let bound ← newBoundCopy v copy
  let reference ← newNode (.var bound)
  pure ⟨v, bound, reference⟩

/-- A new quantified variable for the same copy of the state as `v`. -/
def newTwinBinding (v : VarRef) : StateM Program Binding := do
  let p ← get
  newBinding (p.var v).copy v

/-- Makes the replacements in an expression and binds the variables. With no variables it is the
expression itself. -/
def newExists (bound : List VarRef) (σ : TwoState ExprRef) (e : ExprRef) :
    StateM Program ExprRef :=
  match bound with
  | [] => pure e
  | v :: vs => do
    let body ← onExprs (ExprTable.subst σ e)
    newNode (.quant .existential (v :: vs) body)

/-- Replaces variables by new quantified ones of the same names and binds these. -/
def bindLocals (locals : List VarRef) (e : ExprRef) : StateM Program ExprRef := do
  let bindings ← locals.mapM newTwinBinding
  let σ := TwoState.uniform (Substitution.ofList (bindings.map Binding.replacement))
  newExists (bindings.map Binding.bound) σ e

end Program

/-! ## Relations of actions -/

section

variable (first : Option AtomicAction) (second : AtomicAction)

/-- The locals that a relation binds. -/
def transitionLocals : List VarRef :=
  (first.map fun a => a.primary.locals).getD [] ++ second.shadow.locals

/-- The variables that a relation keeps track of. -/
def transitionFrame (p : Program) : List VarRef :=
  p.globals ++ (first.map fun a => a.primary.outputs).getD [] ++ second.shadow.outputs

/-- Where runs go on after the second action. -/
def transitionNext : Option BlockRef := first.map fun a => a.primary.entry

/-- The relation between prior and current state of the shadow copy of `second`, followed by the
primary copy of `first` if one is given. -/
def transition : Build ExprRef := do
  let p ← get
  let frame := transitionFrame first second p
  let depth := p.blocks.size + 1
  let start ← Program.newNode (.lit (.bool false))
  let relation ←
    Program.search frame depth (transitionNext first) [] second.shadow.entry start
  Program.bindLocals (transitionLocals first second) relation

end

end AtomicMovers
