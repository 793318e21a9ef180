/-!
# What stops the pass

The causes for which no obligations can be generated or written, and their wording.
-/

namespace AtomicMovers

/-- Why the output file could not be opened. -/
inductive WriteError where
  | notFound
  | isDirectory
  deriving DecidableEq, Inhabited

def WriteError.message : WriteError → String
  | notFound => "No such file or directory (os error 2)"
  | isDirectory => "Is a directory (os error 21)"

inductive Error where
  /-- Atomic actions are monomorphic. -/
  | typeParameters (procedure : String)
  /-- A procedure has at most one postcondition that makes it an atomic action. -/
  | multipleActions (procedure : String)
  /-- The body of an atomic action has no blocks. -/
  | emptyAction (procedure : String)
  /-- A block on a completing path still contains an assertion. -/
  | unsupportedAssert (label : String)
  /-- A reachable block of an atomic action ends in neither a goto nor a value return. -/
  | unrecognizedTransfer (label : String)
  /-- A goto of an atomic action leaves the action. -/
  | foreignTarget (procedure label : String)
  /-- A block of an atomic action is reachable from itself. -/
  | cyclicAction (label : String)
  | write (cause : WriteError)
  deriving DecidableEq, Inhabited

/-- Names in messages stand between backquotes. -/
def quoted (name : String) : String := "`" ++ name ++ "`"

def Error.message : Error → String
  | typeParameters p =>
    "atomic action " ++ quoted p ++ " has type parameters, which mover checking does not support"
  | multipleActions p =>
    "procedure " ++ quoted p ++ " has more than one mover-tagged postcondition"
  | emptyAction p => "atomic action " ++ quoted p ++ " has an empty body"
  | unsupportedAssert l =>
    "unsupported `assert` command in block " ++ quoted l ++
      " while computing a transition relation"
  | unrecognizedTransfer l =>
    "block " ++ quoted l ++ " does not end in a goto or a value return"
  | foreignTarget p l =>
    "block " ++ quoted l ++ " of atomic action " ++ quoted p ++ " jumps outside of the action"
  | cyclicAction l =>
    "block " ++ quoted l ++ " is reachable from itself inside an atomic action"
  | write cause => "failed to write the mover checker program: " ++ cause.message

end AtomicMovers
