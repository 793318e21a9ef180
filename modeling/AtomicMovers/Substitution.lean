import AtomicMovers.Program.Basic

/-!
# Substitution in two states

An expression reads two states: references under `old` read the prior state, all others the current
one. A two-state substitution (`TwoState`) therefore has two maps, and which one a reference is
looked up in depends on the `old` above it. Binders are kept as they stand.

The same substitution is given twice:

* `Expr.subst` on trees, with trees as replacements;
* `ExprTable.subst` on the table, with entries as replacements. It returns the entry it was given
  when nothing below was replaced by a different entry, and otherwise adds new entries for the layers
  above a replacement only.
-/

namespace AtomicMovers

/-- Replacements for variables. The first entry for a variable counts. -/
abbrev Substitution (ε : Type) := List (VarRef × ε)

/-- The replacements listed from left to right, a later one overriding an earlier one. -/
def Substitution.ofList {ε : Type} (entries : List (VarRef × ε)) : Substitution ε :=
  entries.reverse

/-- The replacement of variables by variables. -/
def Substitution.renaming (pairs : List (VarRef × VarRef)) : Substitution Expr :=
  Substitution.ofList (pairs.map fun x => (x.1, .var x.2))

/-- The state a reference is read in. -/
inductive Moment where
  | current
  | prior
  deriving DecidableEq, Inhabited

/-- One map for references to the current state and one for references under `old`. -/
structure TwoState (ε : Type) where
  current : Substitution ε
  prior : Substitution ε

namespace TwoState

variable {ε δ : Type}

/-- The same map in both states. -/
def uniform (s : Substitution ε) : TwoState ε := ⟨s, s⟩

/-- Replaces in the prior state only. -/
def inPrior (s : Substitution ε) : TwoState ε := ⟨[], s⟩

def during (σ : TwoState ε) : Moment → Substitution ε
  | .current => σ.current
  | .prior => σ.prior

def map (f : ε → δ) (σ : TwoState ε) : TwoState δ :=
  ⟨σ.current.map fun x => (x.1, f x.2), σ.prior.map fun x => (x.1, f x.2)⟩

end TwoState

/-! ## Trees -/

namespace Expr

mutual

/-- Replaces every reference of a tree that is read at moment `m`. -/
def substAt (σ : TwoState Expr) (m : Moment) : Expr → Expr
  | .lit value => .lit value
  | .var v => ((σ.during m).lookup v).getD (.var v)
  | .old e => .old (e.substAt σ .prior)
  | .unary op e => .unary op (e.substAt σ m)
  | .binary op l r => .binary op (l.substAt σ m) (r.substAt σ m)
  | .call f args => .call f (substAll σ m args)
  | .quant q bound body => .quant q bound (body.substAt σ m)

def substAll (σ : TwoState Expr) (m : Moment) : List Expr → List Expr
  | [] => []
  | e :: es => e.substAt σ m :: substAll σ m es

end

def subst (σ : TwoState Expr) (e : Expr) : Expr := e.substAt σ .current

end Expr

/-! ## Entries of the table -/

namespace ExprTable

/-- The entry `e` if it is unchanged, and otherwise a new entry for its new layer. -/
def rebuild (e : ExprRef) (unchanged : Bool) (n : Node) : StateM ExprTable ExprRef :=
  if unchanged then pure e else add n

/-- Replaces the references at most `depth` layers below the entry `e`. -/
def substWithin (σ : TwoState ExprRef) : Nat → Moment → ExprRef → StateM ExprTable ExprRef
  | 0, _, e => pure e
  | depth + 1, m, e => do
    let t ← get
    match t.node e with
    | .lit _ => pure e
    | .var v => pure (((σ.during m).lookup v).getD e)
    | .old x =>
      let x' ← substWithin σ depth .prior x
      rebuild e (x' = x) (.old x')
    | .unary op x =>
      let x' ← substWithin σ depth m x
      rebuild e (x' = x) (.unary op x')
    | .binary op l r =>
      let l' ← substWithin σ depth m l
      let r' ← substWithin σ depth m r
      rebuild e (l' = l ∧ r' = r) (.binary op l' r')
    | .call f args =>
      let args' ← args.mapM (substWithin σ depth m)
      rebuild e (args' = args) (.call f args')
    | .quant q bound body =>
      let body' ← substWithin σ depth m body
      rebuild e (body' = body) (.quant q bound body')

/-- Replaces every reference below the entry `e`, sharing what does not change. -/
def subst (σ : TwoState ExprRef) (e : ExprRef) : StateM ExprTable ExprRef :=
  substWithin σ (e.index + 1) .current e

/-- The variable an assignment to `v` goes to after substitution: the one that a reference to `v` in
the current state is replaced by, if it is replaced by a variable at all. -/
def retarget (t : ExprTable) (σ : TwoState ExprRef) (v : VarRef) : VarRef :=
  match (σ.current.lookup v).map t.node with
  | some (.var target) => target
  | _ => v

/-- Replaces the references of a command, its assigned variables included. -/
def substCommand (σ : TwoState ExprRef) :
    Command ExprRef → StateM ExprTable (Command ExprRef)
  | .assert e => do
    let e ← subst σ e
    pure (.assert e)
  | .assume e => do
    let e ← subst σ e
    pure (.assume e)
  | .assign updates => do
    let updates ← updates.mapM fun u => do
      let t ← get
      let target := t.retarget σ u.1
      let value ← subst σ u.2
      pure (target, value)
    pure (.assign updates)

end ExprTable

end AtomicMovers
