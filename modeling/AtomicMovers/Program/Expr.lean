import AtomicMovers.Program.Syntax

/-!
# Expressions: a table of nodes and the trees in it

Expressions are kept in a table that only grows. An entry is one layer of an expression (`Node`)
whose children are entries made before it. Two entries may hold the same expression and still be
told apart, which is how a substitution can say that it changed nothing.

* `ExprTable.add` makes an entry; `ExprTable.ChildrenFirst` says that children come before parents;
* `Expr` is the expression as a tree, and `ExprTable.expr` reads the tree off an entry;
* `ExprTable.addTree` enters a whole tree, node by node.

Printing, evaluation and the computation of formulas work on trees. Only what must keep the identity
of entries works on the table.
-/

namespace AtomicMovers

/-- One layer of an expression. -/
inductive Node where
  | lit (value : Literal)
  | var (v : VarRef)
  /-- The value in the state before the enclosing procedure or action ran. -/
  | old (e : ExprRef)
  | unary (op : UnaryOp) (e : ExprRef)
  | binary (op : BinaryOp) (l r : ExprRef)
  | call (function : String) (args : List ExprRef)
  | quant (q : Quantifier) (bound : List VarRef) (body : ExprRef)
  deriving DecidableEq

instance : Inhabited Node := ⟨.lit (.bool true)⟩

def Node.children : Node → List ExprRef
  | lit _ | var _ => []
  | old e | unary _ e | quant _ _ e => [e]
  | binary _ l r => [l, r]
  | call _ args => args

/-- An expression as a tree. -/
inductive Expr where
  | lit (value : Literal)
  | var (v : VarRef)
  | old (e : Expr)
  | unary (op : UnaryOp) (e : Expr)
  | binary (op : BinaryOp) (l r : Expr)
  | call (function : String) (args : List Expr)
  | quant (q : Quantifier) (bound : List VarRef) (body : Expr)

instance : Inhabited Expr := ⟨.lit (.bool true)⟩

namespace Expr

def tt : Expr := lit (.bool true)

def ff : Expr := lit (.bool false)

def not (e : Expr) : Expr := unary .not e

def and (l r : Expr) : Expr := binary .and l r

def or (l r : Expr) : Expr := binary .or l r

def eq (l r : Expr) : Expr := binary .eq l r

/-- Some values of the variables make the body true. With no variables it is the body. -/
def existsAll : List VarRef → Expr → Expr
  | [], body => body
  | v :: vs, body => quant .existential (v :: vs) body

/-- All of `es` hold. The last one stands outermost: `e₂ && (e₁ && true)`. -/
def conjoin (es : List Expr) : Expr :=
  es.foldl (fun conj e => e.and conj) tt

end Expr

/-! ## The table -/

structure ExprTable where
  nodes : Array Node := #[]
  deriving Inhabited

namespace ExprTable

def size (t : ExprTable) : Nat := t.nodes.size

def node (t : ExprTable) (e : ExprRef) : Node := t.nodes.getD e.index default

/-- Makes a new entry, the next position of the table. -/
def add (n : Node) : StateM ExprTable ExprRef := fun t =>
  (⟨t.nodes.size⟩, ⟨t.nodes.push n⟩)

/-- Every child of an entry was entered before it. -/
def ChildrenFirst (t : ExprTable) : Prop :=
  ∀ (i : Nat) (n : Node), t.nodes[i]? = some n → ∀ c ∈ n.children, c.index < i

/-- The tree of an entry, cut off below `depth` layers. -/
def exprWithin (t : ExprTable) : Nat → ExprRef → Expr
  | 0, _ => default
  | depth + 1, e =>
    match t.node e with
    | .lit value => .lit value
    | .var v => .var v
    | .old e => .old (t.exprWithin depth e)
    | .unary op e => .unary op (t.exprWithin depth e)
    | .binary op l r => .binary op (t.exprWithin depth l) (t.exprWithin depth r)
    | .call f args => .call f (args.map (t.exprWithin depth))
    | .quant q bound body => .quant q bound (t.exprWithin depth body)

/-- The tree of an entry. Where children come first a path down from `e` visits ever smaller
positions, so `e.index + 1` layers reach every leaf. -/
def expr (t : ExprTable) (e : ExprRef) : Expr := t.exprWithin (e.index + 1) e

mutual

/-- Enters a tree, children before parents and left before right; every node is a new entry. -/
def addTree : Expr → StateM ExprTable ExprRef
  | .lit value => add (.lit value)
  | .var v => add (.var v)
  | .old e => do
    let e ← addTree e
    add (.old e)
  | .unary op e => do
    let e ← addTree e
    add (.unary op e)
  | .binary op l r => do
    let l ← addTree l
    let r ← addTree r
    add (.binary op l r)
  | .call f args => do
    let args ← addTrees args
    add (.call f args)
  | .quant q bound body => do
    let body ← addTree body
    add (.quant q bound body)

/-- Enters trees from left to right. -/
def addTrees : List Expr → StateM ExprTable (List ExprRef)
  | [] => pure []
  | e :: es => do
    let e ← addTree e
    let es ← addTrees es
    pure (e :: es)

end

end ExprTable

end AtomicMovers
