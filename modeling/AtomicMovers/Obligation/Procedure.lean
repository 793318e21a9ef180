import AtomicMovers.Obligation.Basic
import AtomicMovers.Ownership
import AtomicMovers.Transition.Relation

/-!
# The procedures that state obligations

Each obligation is about the primary copy of the first action and the shadow copy of the second, so
the two never share a variable, also when they are copies of one action.

* `addCommutativity` runs first and second and ensures the relation of second and first;
* `addGatePreservation` requires the gate of the first, runs the second and ensures the gate;
* `addFailurePreservation` has an empty body. It requires that the gate of the first fails and that
  of the second holds, and ensures that the second has a run after which the first still fails.

All of them require that the resources held by globals and inputs are disjoint.
-/

namespace AtomicMovers

/-! ## Disjointness -/

/-- The variables whose resources must not overlap, each with the variable that its domain is looked
up on: globals, inputs of the first action, and inputs of the second in its shadow copy. -/
def ownershipCandidates (p : Program) (first second : AtomicAction) : List (VarRef × VarRef) :=
  (p.globals ++ first.primary.inputs).map (fun v => (v, v)) ++
    second.primary.inputs.zip second.shadow.inputs

/-- The candidates of one domain. -/
def domainScope (p : Program) (first second : AtomicAction) (domain : String) : List VarRef :=
  ((ownershipCandidates p first second).filter fun c => (p.var c.1).domain = some domain).map
    Prod.snd

/-- One clause per domain that has candidates. -/
def addDisjointnessClauses (o : Ownership) (first second : AtomicAction) :
    StateM Program (List ExprRef) := do
  let p ← get
  let scopes := o.domains.map fun d => (d, domainScope p first second d)
  (scopes.filter fun s => s.2 ≠ []).mapM fun s => Ownership.addDisjointness s.1 s.2

/-! ## Parts -/

/-- Adds a procedure and its implementation. -/
def addImplemented (r : Procedure) (locals : List VarRef) (blocks : List BlockRef) :
    StateM Program ProcRef := do
  let ref ← Program.newProcedure r
  let _ ← Program.newImplementation
    { name := r.name, procedure := ref, inputs := r.inputs, outputs := r.outputs,
      locals := locals, blocks := blocks }
  pure ref

/-- Blocks of an implementation: labels and commands are kept, and a value return goes to `exit`, or
leaves the implementation if none is given. -/
def runPlan (exit : Option BlockRef) : CopyPlan where
  label l := l
  command c := pure c
  valueReturn :=
    match exit with
    | some b => pure (.goto [b])
    | none => pure .leave

/-- A postcondition without attributes. -/
def Postcondition.ofFormula (e : ExprRef) : Postcondition := { condition := .formula e }

/-! ## The three kinds -/

/-- What is reached by the first and then the second action is reached in the other order too. The
blocks of the first go on at the entry of the second. -/
def addCommutativity (o : Ownership) (first second : AtomicAction) : Build ProcRef := do
  let secondBlocks ← (runPlan none).copyBlocks second.name second.shadow.blocks
  let firstBlocks ←
    (runPlan (some (secondBlocks.headD default))).copyBlocks first.name first.primary.blocks
  let requires ← addDisjointnessClauses o first second
  let relation ← transition (some first) second
  addImplemented
    { name := ObligationKind.commutativity.procedureName first second
      inputs := first.primary.inputs ++ second.shadow.inputs
      outputs := first.primary.outputs ++ second.shadow.outputs
      requires := requires
      ensures := [.ofFormula relation] }
    (first.primary.locals ++ second.shadow.locals) (firstBlocks ++ secondBlocks)

/-- Every conjunct of the gate of the first action is required, and ensured after the second. -/
def addGatePreservation (o : Ownership) (first second : AtomicAction) : Build ProcRef := do
  let blocks ← (runPlan none).copyBlocks second.name second.shadow.blocks
  let requires ← addDisjointnessClauses o first second
  addImplemented
    { name := ObligationKind.gatePreservation.procedureName first second
      inputs := first.primary.inputs ++ second.shadow.inputs
      outputs := first.primary.outputs ++ second.shadow.outputs
      requires := requires ++ first.primary.gate
      ensures := first.primary.gate.map .ofFormula }
    second.shadow.locals blocks

/-- Quantified versions of an output, after and before. -/
def newOutputBindings (v : VarRef) : StateM Program (Binding × Binding) := do
  let after ← Program.newBinding .after v
  let before ← Program.newBinding .before v
  pure (after, before)

/-- States that the second action has a run as `relation` says, after which `outcome` holds. What the
run may end with (globals and outputs afterwards) and what it may start with (outputs and locals
before) is bound existentially. -/
def addReachability (second : AtomicAction) (relation outcome : ExprRef) :
    StateM Program ExprRef := do
  let p ← get
  let globals ← p.globals.mapM (Program.newBinding .after)
  let outputs ← second.shadow.outputs.mapM newOutputBindings
  let locals ← second.shadow.locals.mapM (Program.newBinding .before)
  let bindings := globals ++ outputs.flatMap (fun x => [x.1, x.2]) ++ locals
  let σ : TwoState ExprRef :=
    { current := Substitution.ofList
        ((globals ++ outputs.map Prod.fst).map Binding.replacement)
      prior := Substitution.ofList
        ((outputs.map Prod.snd ++ locals).map Binding.replacement) }
  let condition ← Program.newNode (.binary .and relation outcome)
  Program.newExists (bindings.map Binding.bound) σ condition

/-- The first action still fails after some run of the second. All is said in the contract, so the
body does nothing. -/
def addFailurePreservation (o : Ownership) (first second : AtomicAction) : Build ProcRef := do
  let relation ← transition none second
  let firstGate ← Program.newConjunction pure first.primary.gate
  let gateFails ← Program.newNode (.unary .not firstGate)
  let requires ← addDisjointnessClauses o first second
  let condition ← addReachability second relation gateFails
  let body ← Program.newBlock { label := "L", commands := [], transfer := .leave }
  addImplemented
    { name := ObligationKind.failurePreservation.procedureName first second
      inputs := first.primary.inputs ++ second.shadow.inputs
      requires := requires ++ gateFails :: second.shadow.gate
      ensures := [.ofFormula condition] }
    [] [body]

/-- Adds the procedure of a kind for two actions. -/
def addObligation (o : Ownership) (kind : ObligationKind) (first second : AtomicAction) :
    Build ProcRef :=
  match kind with
  | .commutativity => addCommutativity o first second
  | .gatePreservation => addGatePreservation o first second
  | .failurePreservation => addFailurePreservation o first second

end AtomicMovers
