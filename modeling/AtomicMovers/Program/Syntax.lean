/-!
# The pieces of a program

A program is a set of tables (variables, expressions, blocks, procedures, implementations) and an
ordered list of declarations. Everything refers to everything else by position in a table, so this
file starts with the references and then lists what the tables hold.

* `VarRef`, `ExprRef`, `BlockRef`, `ProcRef`, `ImplRef`: positions, one type per table, so that a
  block is never looked up among the variables;
* `Ty`, `Variable`: types and variables, with the state copy a variable belongs to (`StateCopy`) and
  the ownership domain it is annotated with;
* `Literal`, operators, `Command`, `Transfer`, `Block`: what bodies are made of;
* `Procedure`, `Implementation`, `Declaration`: the top level.
-/

namespace AtomicMovers

/-! ## References -/

/-- A position in the table of variables. -/
structure VarRef where
  index : Nat
  deriving DecidableEq, Inhabited

/-- A position in the table of expression nodes. -/
structure ExprRef where
  index : Nat
  deriving DecidableEq, Inhabited

/-- A position in the table of blocks. -/
structure BlockRef where
  index : Nat
  deriving DecidableEq, Inhabited

/-- A position in the table of procedures. -/
structure ProcRef where
  index : Nat
  deriving DecidableEq, Inhabited

/-- A position in the table of implementations. -/
structure ImplRef where
  index : Nat
  deriving DecidableEq, Inhabited

/-! ## Types and variables -/

inductive Ty where
  | bool
  | int
  /-- Bit vectors of a fixed width. -/
  | bits (width : Nat)
  /-- A type the program declares by name. -/
  | named (name : String)
  deriving DecidableEq, Inhabited

inductive VarKind where
  | global
  | constant
  | input
  | output
  | localVar
  /-- Introduced by a quantifier, never declared. -/
  | bound
  deriving DecidableEq, Inhabited

/-- The copy of the state a variable belongs to. It only shows in the displayed name: which
variable is meant is always decided by its `VarRef`. -/
inductive StateCopy where
  | own
  | shadow
  | before
  | after
  deriving DecidableEq, Inhabited

/-- What the displayed name of a variable starts with. -/
def StateCopy.mark : StateCopy → String
  | .own => ""
  | .shadow => "that_"
  | .before => "pre_"
  | .after => "post_"

structure Variable where
  name : String
  ty : Ty
  kind : VarKind
  copy : StateCopy := .own
  /-- The ownership domain the variable is annotated with, if any. -/
  domain : Option String := none
  deriving DecidableEq, Inhabited

namespace Variable

/-- The same variable in the shadow copy of the state. -/
def toShadow (v : Variable) : Variable := { v with copy := .shadow }

/-- A quantified variable with the name and type of `v`, for the state copy `copy`. It carries no
ownership annotation. -/
def toBound (v : Variable) (copy : StateCopy) : Variable :=
  { name := v.name, ty := v.ty, kind := .bound, copy := copy }

def isGlobal (v : Variable) : Bool := v.kind = .global

/-- The name to print when nothing else is called so. -/
def shownName (v : Variable) : String := v.copy.mark ++ v.name

end Variable

/-! ## Literals and operators -/

inductive Literal where
  | bool (value : Bool)
  | int (value : Int)
  | bits (value width : Nat)
  deriving DecidableEq, Inhabited

inductive UnaryOp where
  | not
  | neg
  deriving DecidableEq, Inhabited

inductive BinaryOp where
  | and
  | or
  | implies
  | iff
  | eq
  | ne
  | lt
  | le
  | gt
  | ge
  | add
  | sub
  | mul
  | div
  | mod
  deriving DecidableEq, Inhabited

inductive Quantifier where
  | universal
  | existential
  deriving DecidableEq, Inhabited

/-! ## Bodies -/

/-- A command over expressions of type `ε`: references while it stands in a block, trees when it is
read out. -/
inductive Command (ε : Type) where
  /-- The run fails unless the condition holds. -/
  | assert (condition : ε)
  /-- The run is abandoned unless the condition holds. -/
  | assume (condition : ε)
  /-- All variables get their new values at once. -/
  | assign (updates : List (VarRef × ε))
  deriving DecidableEq, Inhabited

namespace Command

variable {ε δ : Type}

def map (f : ε → δ) : Command ε → Command δ
  | assert e => assert (f e)
  | assume e => assume (f e)
  | assign updates => assign (updates.map fun u => (u.1, f u.2))

def isAssert : Command ε → Bool
  | assert _ => true
  | _ => false

end Command

/-- How a block ends. -/
inductive Transfer where
  /-- Control continues at any one of the targets. -/
  | goto (targets : List BlockRef)
  /-- The end of an action body, with the value of the body. -/
  | returnValue (value : ExprRef)
  /-- The end of an implementation. -/
  | leave
  deriving DecidableEq

instance : Inhabited Transfer := ⟨.leave⟩

structure Block where
  label : String
  commands : List (Command ExprRef)
  transfer : Transfer
  deriving DecidableEq, Inhabited

/-- A block graph used as a postcondition. Its first block is the entry. -/
structure Body where
  locals : List VarRef
  blocks : List BlockRef
  deriving DecidableEq, Inhabited

/-! ## The top level -/

inductive Condition where
  | formula (condition : ExprRef)
  | body (code : Body)
  deriving DecidableEq, Inhabited

structure Postcondition where
  attributes : List String := []
  condition : Condition
  deriving DecidableEq, Inhabited

structure Procedure where
  name : String
  typeParams : List String := []
  inputs : List VarRef := []
  outputs : List VarRef := []
  requires : List ExprRef := []
  ensures : List Postcondition := []
  deriving DecidableEq, Inhabited

structure Implementation where
  name : String
  procedure : ProcRef
  inputs : List VarRef
  outputs : List VarRef
  locals : List VarRef
  blocks : List BlockRef
  deriving DecidableEq, Inhabited

/-- The signature of an uninterpreted function. -/
structure FunctionSig where
  name : String
  args : List Ty
  result : Ty
  deriving DecidableEq, Inhabited

inductive Declaration where
  | typeName (name : String)
  | constant (v : VarRef)
  | function (sig : FunctionSig)
  /-- A formula that holds everywhere. -/
  | assumption (condition : ExprRef)
  | global (v : VarRef)
  | procedure (p : ProcRef)
  | implementation (i : ImplRef)
  deriving DecidableEq, Inhabited

namespace Declaration

/-- Declarations that every program derived from this one shares in their order: all but the global
variables, the procedures and the implementations. -/
def isShared : Declaration → Bool
  | typeName _ | constant _ | function _ | assumption _ => true
  | _ => false

/-- Declarations that a new function is declared after. -/
def precedesFunctions : Declaration → Bool
  | typeName _ | constant _ | function _ => true
  | _ => false

def global? : Declaration → Option VarRef
  | global v => some v
  | _ => none

def procedure? : Declaration → Option ProcRef
  | procedure p => some p
  | _ => none

def implementation? : Declaration → Option ImplRef
  | implementation i => some i
  | _ => none

def function? : Declaration → Option FunctionSig
  | function sig => some sig
  | _ => none

end Declaration

end AtomicMovers
