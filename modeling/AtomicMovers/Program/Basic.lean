import AtomicMovers.Program.Expr

/-!
# Programs

The tables, the ordered declarations and the names under which globals and constants were added.
Tables only grow: adding makes a new entry at the next position, so a reference stays valid for good
and means the same entry in every program derived from the one that made it.

* looking up: `var`, `expr`, `block`, `procedure`, `implementation` are total, an unknown
  position reads as a default entry;
* reading declarations: `globals`, `procedureRefs`, `implementationRefs`, `functions`;
* growing: the `add…` operations, in `StateM Program`;
* `sharedBase`: the program that keeps the tables and drops all procedures.
-/

namespace AtomicMovers

structure Program where
  vars : Array Variable := #[]
  exprs : ExprTable := {}
  blocks : Array Block := #[]
  procedures : Array Procedure := #[]
  implementations : Array Implementation := #[]
  /-- Top-level declarations in order. -/
  declarations : List Declaration := []
  /-- The globals and constants added by name, newest first. -/
  names : List (String × VarRef) := []
  deriving Inhabited

namespace Program

/-! ## Looking up -/

def var (p : Program) (v : VarRef) : Variable := p.vars.getD v.index default

def node (p : Program) (e : ExprRef) : Node := p.exprs.node e

/-- The tree of an expression. -/
def expr (p : Program) (e : ExprRef) : Expr := p.exprs.expr e

def block (p : Program) (b : BlockRef) : Block := p.blocks.getD b.index default

def procedure (p : Program) (r : ProcRef) : Procedure := p.procedures.getD r.index default

def implementation (p : Program) (i : ImplRef) : Implementation :=
  p.implementations.getD i.index default

/-- The commands of a block, with their expressions as trees. -/
def commands (p : Program) (b : BlockRef) : List (Command Expr) :=
  (p.block b).commands.map (Command.map p.expr)

/-- The global or constant added under a name. -/
def named? (p : Program) (name : String) : Option VarRef := p.names.lookup name

/-! ## Reading the declarations -/

/-- The declared global variables in order. -/
def globals (p : Program) : List VarRef := p.declarations.filterMap Declaration.global?

/-- The declared procedures in order. -/
def procedureRefs (p : Program) : List ProcRef := p.declarations.filterMap Declaration.procedure?

/-- The declared implementations in order. -/
def implementationRefs (p : Program) : List ImplRef :=
  p.declarations.filterMap Declaration.implementation?

/-- The declared functions in order. -/
def functions (p : Program) : List FunctionSig := p.declarations.filterMap Declaration.function?

/-- The first declared procedure of a name. -/
def procedureNamed? (p : Program) (name : String) : Option ProcRef :=
  p.procedureRefs.find? fun r => (p.procedure r).name = name

/-- All positions of the table of variables. -/
def varRefs (p : Program) : List VarRef := (List.range p.vars.size).map VarRef.mk

/-- The same tables under fewer declarations: the shared ones in order, then the globals. -/
def sharedBase (p : Program) : Program :=
  { p with
    declarations := p.declarations.filter Declaration.isShared ++ p.globals.map .global }

/-! ## Growing -/

/-- Runs a computation on the table of expressions alone. The table is taken out of the program
meanwhile, so that it is not shared and grows in place. -/
def onExprs {α : Type} (m : StateM ExprTable α) : StateM Program α := fun p =>
  let exprs := p.exprs
  let p := { p with exprs := {} }
  let result := m exprs
  (result.1, { p with exprs := result.2 })

def newNode (n : Node) : StateM Program ExprRef := onExprs (ExprTable.add n)

/-- Enters a tree, node by node. -/
def newExpr (e : Expr) : StateM Program ExprRef := onExprs (ExprTable.addTree e)

/-- The conjunction of the expressions that `conjunct` makes one after the other. The last one stands
outermost: `e₂ && (e₁ && true)`. -/
def newConjunction {α : Type} (conjunct : α → StateM Program ExprRef) (as : List α) :
    StateM Program ExprRef := do
  let start ← newNode (.lit (.bool true))
  as.foldlM (fun conj a => do
    let e ← conjunct a
    newNode (.binary .and e conj)) start

def newVariable (v : Variable) : StateM Program VarRef := fun p =>
  (⟨p.vars.size⟩, { p with vars := p.vars.push v })

/-- A new quantified variable with the name and type of `v`. -/
def newBoundCopy (v : VarRef) (copy : StateCopy) : StateM Program VarRef := do
  let p ← get
  newVariable ((p.var v).toBound copy)

/-- A new variable that repeats `v` in the shadow copy of the state. -/
def newShadow (v : VarRef) : StateM Program VarRef := do
  let p ← get
  newVariable (p.var v).toShadow

def newBlock (b : Block) : StateM Program BlockRef := fun p =>
  (⟨p.blocks.size⟩, { p with blocks := p.blocks.push b })

/-- A new procedure without a declaration. -/
def newUndeclaredProcedure (r : Procedure) : StateM Program ProcRef := fun p =>
  (⟨p.procedures.size⟩, { p with procedures := p.procedures.push r })

/-- A new implementation without a declaration. -/
def newUndeclaredImplementation (i : Implementation) : StateM Program ImplRef := fun p =>
  (⟨p.implementations.size⟩, { p with implementations := p.implementations.push i })

/-- Appends a declaration. -/
def declare (d : Declaration) : StateM Program Unit :=
  modify fun p => { p with declarations := p.declarations ++ [d] }

/-- A new procedure, declared last. -/
def newProcedure (r : Procedure) : StateM Program ProcRef := do
  let ref ← newUndeclaredProcedure r
  declare (.procedure ref)
  pure ref

/-- A new implementation, declared last. -/
def newImplementation (i : Implementation) : StateM Program ImplRef := do
  let ref ← newUndeclaredImplementation i
  declare (.implementation ref)
  pure ref

/-- Adds a variable under its name and declares it last; a name that is in use gives `none` and
changes nothing. -/
def newNamed (v : Variable) (declaration : VarRef → Declaration) :
    StateM Program (Option VarRef) := do
  let p ← get
  match p.named? v.name with
  | some _ => pure none
  | none =>
    let ref ← newVariable v
    declare (declaration ref)
    modify fun p => { p with names := (v.name, ref) :: p.names }
    pure (some ref)

def newGlobal (name : String) (ty : Ty) : StateM Program (Option VarRef) :=
  newNamed { name := name, ty := ty, kind := .global } .global

def newConstant (name : String) (ty : Ty) : StateM Program (Option VarRef) :=
  newNamed { name := name, ty := ty, kind := .constant } .constant

/-- Declares a function behind the leading types, constants and functions, unless a function of
that name is declared already. -/
def declareSignature (sig : FunctionSig) : StateM Program Unit :=
  modify fun p =>
    if p.functions.any fun f => f.name = sig.name then p
    else
      { p with
        declarations :=
          p.declarations.takeWhile Declaration.precedesFunctions ++
            .function sig :: p.declarations.dropWhile Declaration.precedesFunctions }

/-! ## Changing entries -/

def modifyVariable (v : VarRef) (f : Variable → Variable) (p : Program) : Program :=
  { p with vars := p.vars.modify v.index f }

def modifyBlock (b : BlockRef) (f : Block → Block) (p : Program) : Program :=
  { p with blocks := p.blocks.modify b.index f }

def modifyProcedure (r : ProcRef) (f : Procedure → Procedure) (p : Program) : Program :=
  { p with procedures := p.procedures.modify r.index f }

def setDomain (v : VarRef) (domain : Option String) : Program → Program :=
  modifyVariable v fun x => { x with domain := domain }

def setTransfer (b : BlockRef) (transfer : Transfer) : Program → Program :=
  modifyBlock b fun x => { x with transfer := transfer }

def pushCommand (b : BlockRef) (c : Command ExprRef) : Program → Program :=
  modifyBlock b fun x => { x with commands := x.commands ++ [c] }

def pushEnsures (r : ProcRef) (e : Postcondition) : Program → Program :=
  modifyProcedure r fun x => { x with ensures := x.ensures ++ [e] }

def pushTypeParam (r : ProcRef) (name : String) : Program → Program :=
  modifyProcedure r fun x => { x with typeParams := x.typeParams ++ [name] }

end Program

end AtomicMovers
