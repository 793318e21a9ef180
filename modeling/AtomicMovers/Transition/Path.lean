import AtomicMovers.Action

/-!
# Completing paths

The paths along which an action, or one action after another, can run from its entry to its end. They
are searched depth first, in the order of the goto targets, and the search fails at the first thing
it cannot handle: a block that is reached from itself, a block that ends in neither a goto nor a
value return, or an assertion on a path that completes.

Here the search is said without the formula that is built on the way, so it only reads blocks
(`Program.completingPaths`). The formula that belongs to a list of paths is given as a tree
(`Program.relationFormula`). How both are computed at once is in `AtomicMovers.Transition.Relation`.
-/

namespace AtomicMovers

/-- The blocks of a path, the last one first. -/
abbrev Path := List BlockRef

namespace Program

/-! ## The search -/

/-- A path is usable if none of its blocks asserts anything. -/
def completePath (p : Program) (path : Path) : Except Error (List Path) :=
  match path.find? fun b => (p.block b).commands.any Command.isAssert with
  | some b => .error (.unsupportedAssert (p.block b).label)
  | none => .ok [path]

/-- The completing continuations of `path` at the block `b`. A value return continues at the block
`next`, if there is one, and completes the path otherwise. The path never repeats a block, so its
length bounds the depth of the search. -/
def explore (p : Program) : Nat → Option BlockRef → Path → BlockRef → Except Error (List Path)
  | 0, _, _, b => .error (.cyclicAction (p.block b).label)
  | depth + 1, next, path, b =>
    if b ∈ path then .error (.cyclicAction (p.block b).label)
    else
      match (p.block b).transfer with
      | .returnValue _ =>
        match next with
        | some entry => p.explore depth none (b :: path) entry
        | none => p.completePath (b :: path)
      | .goto targets => do
        let found ← targets.mapM (p.explore depth next (b :: path))
        pure found.flatten
      | .leave => .error (.unrecognizedTransfer (p.block b).label)

/-- The completing paths that start at `entry` and, if `next` is given, go on there at the first value
return. -/
def completingPaths (p : Program) (entry : BlockRef) (next : Option BlockRef) :
    Except Error (List Path) :=
  p.explore (p.blocks.size + 1) next [] entry

end Program

/-! ## The formula of paths -/

/-- The variable has the value it had before. -/
def unchanged (v : VarRef) : Expr := (Expr.var v).eq (.old (.var v))

/-- All variables have the values they had before. -/
def frameFormula (frame : List VarRef) : Expr := Expr.conjoin (frame.map unchanged)

/-- The condition that leads through a command to `after`. Paths with assertions are never taken. -/
def Command.backwards (after : Expr) : Command Expr → Expr
  | .assert _ => after
  | .assume e => (Expr.old e).and after
  | .assign updates => after.subst (.inPrior (Substitution.ofList updates))

namespace Program

/-- The condition that leads through a block to `after`. -/
def blockFormula (p : Program) (after : Expr) (b : BlockRef) : Expr :=
  (p.commands b).foldr (fun c after => c.backwards after) after

/-- The condition that a run along the path relates two states. -/
def pathFormula (p : Program) (frame : List VarRef) (path : Path) : Expr :=
  path.foldl p.blockFormula (frameFormula frame)

/-- One of the paths relates two states, or `relation` holds of them. -/
def disjoinPaths (p : Program) (frame : List VarRef) (relation : Expr) (paths : List Path) : Expr :=
  paths.foldl (fun relation path => relation.or (p.pathFormula frame path)) relation

/-- Some of the paths relates two states. -/
def relationFormula (p : Program) (frame : List VarRef) (paths : List Path) : Expr :=
  p.disjoinPaths frame .ff paths

end Program

end AtomicMovers
