import AtomicMovers.Program.Basic

/-!
# Printed names

Different variables may have the same displayed name, so within one printed declaration names are
made unique by appending `_1`, `_2`, … The names of declared globals, constants and functions are
taken from the start, and declared globals and constants keep theirs.

* `freshName`: the first free name of the chain `base`, `base_1`, `base_2`, …;
* `NameScope`: the names given so far. `NameScope.giveNames` goes through the variables in the order
  in which a text mentions them and names each one at its first mention;
* `blockLabels`: unique labels for the blocks of one body, by the same rule.

Choosing the names and writing the text are separate steps: first all variables of a declaration are
named, then the text is a function of the names.
-/

namespace AtomicMovers

/-- The name number `k` of the chain that starts with `base`. -/
def chainName (base : String) : Nat → String
  | 0 => base
  | k + 1 => base ++ "_" ++ toString (k + 1)

/-- The first name of the chain of `base` that is not taken. Among the first `taken.length + 1` names
of a chain, which differ from each other, one is free. -/
def freshName (taken : List String) (base : String) : String :=
  (((List.range (taken.length + 1)).map (chainName base)).find? (· ∉ taken)).getD base

/-- The names in use while one declaration is printed. -/
structure NameScope where
  taken : List String := []
  names : List (VarRef × String) := []
  deriving Inhabited

namespace NameScope

def takeName (name : String) (s : NameScope) : NameScope :=
  { s with taken := name :: s.taken }

/-- Fixes the name of a variable. -/
def bindName (v : VarRef) (name : String) (s : NameScope) : NameScope :=
  { taken := name :: s.taken, names := (v, name) :: s.names }

/-- What a declaration puts into every scope. -/
def enter (p : Program) (s : NameScope) : Declaration → NameScope
  | .global v | .constant v => s.bindName v (p.var v).name
  | .function sig => s.takeName sig.name
  | _ => s

/-- The scope in which the printing of a declaration starts. -/
def ofProgram (p : Program) : NameScope := p.declarations.foldl (enter p) {}

/-- Names a variable unless it has a name. -/
def giveName (p : Program) (s : NameScope) (v : VarRef) : NameScope :=
  match s.names.lookup v with
  | some _ => s
  | none => s.bindName v (freshName s.taken (p.var v).shownName)

/-- Names the variables of a text in the order in which they are mentioned. -/
def giveNames (p : Program) (s : NameScope) (mentioned : List VarRef) : NameScope :=
  mentioned.foldl (giveName p) s

/-- The name of a variable; one that was never mentioned goes by its displayed name. -/
def nameOf (p : Program) (s : NameScope) (v : VarRef) : String :=
  (s.names.lookup v).getD (p.var v).shownName

end NameScope

/-! ## Labels -/

/-- Unique labels, in the order of the given ones. -/
def uniqueLabels (labels : List String) : List String :=
  (labels.foldl (fun given label => freshName given label :: given) []).reverse

/-- The label each block of a body is printed with. A block listed twice goes by its later label. -/
def blockLabels (p : Program) (blocks : List BlockRef) : List (BlockRef × String) :=
  (blocks.zip (uniqueLabels (blocks.map fun b => (p.block b).label))).reverse

end AtomicMovers
