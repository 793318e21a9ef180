import AtomicMovers.Diagnostic
import AtomicMovers.Obligation.Procedure

/-!
# The ledger of obligations

From an input program a ledger is opened, the atomic actions are registered in it, and obligations
are entered, each at most once. The program under construction shares all tables with the input, so
references into the input stay valid in it.

* `Ledger.register` registers the actions of the input in declaration order;
* `Ledger.enter` enters one obligation, or finds the entry it already has;
* `Ledger.enterAll` enters what the mover types of the registered actions call for (`wanted`);
* `Ledger.finish` is the program with all entered obligations.

A step that fails keeps what it did before the failure.
-/

namespace AtomicMovers

structure Ledger where
  ownership : Ownership
  /-- The program under construction. -/
  program : Program
  actions : Array AtomicAction := #[]
  /-- The obligations entered so far and their procedures, in order. -/
  entries : List (Obligation × ProcRef) := []
  /-- What there is to report so far. -/
  diagnostics : List Diagnostic := []
  deriving Inhabited

/-- Steps on a ledger that may fail. -/
abbrev LedgerM := ExceptT Error (StateM Ledger)

namespace Ledger

def ofProgram (input : Program) (ownership : Ownership) : Ledger :=
  { ownership := ownership, program := input.sharedBase }

def action (l : Ledger) (a : ActionRef) : AtomicAction := l.actions.getD a.index default

def actionRefs (l : Ledger) : List ActionRef := (List.range l.actions.size).map ActionRef.mk

/-- The procedure of an obligation that was entered. -/
def entry? (l : Ledger) (o : Obligation) : Option ProcRef := l.entries.lookup o

/-- A step on the program under construction. The program is taken out of the ledger meanwhile, so
that its tables are not shared and grow in place. -/
def onProgram {α : Type} (m : Build α) : LedgerM α := ExceptT.mk fun l =>
  let program := l.program
  let l := { l with program := {} }
  let (result, program) := m.run program
  (result, { l with program := program })

/-! ## Registering actions -/

def ignoredTag : String :=
  "mover annotation on a postcondition that is not a code expression is ignored"

def report (d : Diagnostic) : LedgerM Unit :=
  modify fun l => { l with diagnostics := l.diagnostics ++ [d] }

/-- The tagged postconditions of a procedure. -/
def taggedConditions (r : Procedure) : List (Mover × Condition) :=
  r.ensures.filterMap fun e => e.mover?.map fun m => (m, e.condition)

/-- Registers the action that a tagged condition makes of a procedure. A formula makes none. -/
def registerCondition (name : String) (procedure : ProcRef) (mover : Mover) :
    Condition → LedgerM Unit
  | .body code => do
    let a ← onProgram (AtomicAction.ofBody procedure code mover)
    modify fun l => { l with actions := l.actions.push a }
  | .formula _ => report { severity := .warning, message := ignoredTag, procedure := some name }

/-- Registers the action of a procedure. The first tagged postcondition makes the action; another
one is an error. -/
def registerProcedure (input : Program) (procedure : ProcRef) : LedgerM Unit := do
  let r := input.procedure procedure
  match taggedConditions r with
  | [] => pure ()
  | (mover, condition) :: rest =>
    registerCondition r.name procedure mover condition
    if rest ≠ [] then
      throw (.multipleActions r.name)

/-- Registers the actions of all declared procedures of the input, in order. -/
def register (input : Program) : LedgerM Unit :=
  input.procedureRefs.forM (registerProcedure input)

/-! ## Entering obligations -/

/-- The procedure of an obligation, which is entered unless it has an entry. -/
def enter (o : Obligation) : LedgerM ProcRef := do
  let l ← get
  match l.entry? o with
  | some r => pure r
  | none =>
    let r ← onProgram (addObligation l.ownership o.kind (l.action o.first) (l.action o.second))
    modify fun l => { l with entries := l.entries ++ [(o, r)] }
    pure r

/-- What the mover type of `a` calls for with respect to `b`. A right mover commutes to the right of
`b` and keeps the gate of `b`. A left mover commutes to the left of `b`, and `b` keeps its gate; it
also does not make a failing `b` succeed. -/
def wantedOf (mover : Mover) (a b : ActionRef) : List Obligation :=
  (if mover.isRight then [⟨.commutativity, a, b⟩, ⟨.gatePreservation, b, a⟩] else []) ++
    (if mover.isLeft then
      [⟨.commutativity, b, a⟩, ⟨.gatePreservation, a, b⟩, ⟨.failurePreservation, b, a⟩]
    else [])

/-- What the mover types of all registered actions call for, in the order in which it is entered. -/
def wanted (l : Ledger) : List Obligation :=
  l.actionRefs.flatMap fun a =>
    l.actionRefs.flatMap fun b => wantedOf (l.action a).mover a b

/-- Enters everything that is wanted. -/
def enterAll : LedgerM Unit := do
  let l ← get
  l.wanted.forM fun o => do
    let _ ← enter o

/-- The finished program. -/
def finish (l : Ledger) : Program := l.ownership.strip l.program

end Ledger

end AtomicMovers
