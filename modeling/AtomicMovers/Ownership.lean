import AtomicMovers.Program.Basic

/-!
# Ownership domains

Variables annotated with an ownership domain hold resources that no two of them share. That the
resources of `n` variables of the domain `D` do not overlap is stated by an uninterpreted predicate
`Disjoint_D_n`, declared when it is first used.
-/

namespace AtomicMovers

/-- The tracked domains, and whether annotations are dropped from a finished program. -/
structure Ownership where
  domains : List String
  strips : Bool
  deriving DecidableEq, Inhabited

namespace Ownership

/-- Tracks no domain. -/
def none : Ownership := { domains := [], strips := true }

/-- Tracks the domains that annotate a variable of the program, by first appearance. -/
def ofProgram (p : Program) : Ownership :=
  { domains := (p.vars.toList.filterMap Variable.domain).eraseDups, strips := true }

/-- Tracks the given domains and leaves annotations alone. -/
def tracking (domains : List String) : Ownership := { domains := domains, strips := false }

/-- The name of the predicate for `arity` variables. -/
def predicateName (domain : String) (arity : Nat) : String :=
  "Disjoint_" ++ domain ++ "_" ++ toString arity

/-- States that the resources of the variables do not overlap. -/
def addDisjointness (domain : String) (vs : List VarRef) : StateM Program ExprRef := do
  let p ← get
  let name := predicateName domain vs.length
  Program.declareSignature
    { name := name, args := vs.map fun v => (p.var v).ty, result := .bool }
  Program.newExpr (.call name (vs.map .var))

/-- Drops what is redundant in a finished program. -/
def strip (o : Ownership) (p : Program) : Program :=
  if o.strips then { p with vars := p.vars.map fun v => { v with domain := .none } } else p

end Ownership

end AtomicMovers
