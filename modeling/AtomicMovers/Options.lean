/-!
# Command line options

Two options belong to the pass: `--mover-output FILE`, the file to write, and `--show-env`, which
puts a header comment in front of the output. `Options.parse` reads a list of arguments or says what is wrong
with it.

A value for the output file may follow as the next argument. Reading therefore goes through a state
(`Reading`) in which that option may still be open. It is closed when the next known option begins or
the arguments end, and only then is its value examined, so a fault in between is reported first.
-/

namespace AtomicMovers

structure Options where
  output : String := "MoverChecker.bpl"
  showEnv : Bool := false
  deriving DecidableEq, Inhabited

/-- What is wrong with a command line, or that it asks for help. -/
inductive UsageError where
  /-- A value is missing or empty. -/
  | invalidValue
  /-- An option is given twice. -/
  | argumentConflict
  /-- No option of that name, or an argument that belongs to no option. -/
  | unknownArgument
  /-- A value for an option that takes none. -/
  | tooManyValues
  | displayHelp
  deriving DecidableEq, Inhabited

namespace Options

/-! ## Paths -/

inductive PathPart where
  | root
  /-- The current directory, named by a dot at the start of a path. -/
  | here
  | entry (name : String)
  deriving DecidableEq

/-- The parts of a path. Repeated and trailing slashes do not matter, and neither do dots except in
front. -/
def pathParts (path : String) : List PathPart :=
  let pieces := path.splitOn "/"
  let start :=
    match pieces with
    | "" :: _ :: _ => [.root]
    | "." :: _ => [.here]
    | _ => []
  start ++ (pieces.filter fun s => s ≠ "" ∧ s ≠ ".").map .entry

/-- Whether options mean the same as the default ones: the same path, and no header comment. -/
def isDefault (o : Options) : Bool :=
  pathParts o.output = pathParts ({} : Options).output ∧ o.showEnv = ({} : Options).showEnv

/-! ## Arguments -/

/-- The shape of one argument. -/
inductive Argument where
  /-- Two dashes: no option follows. -/
  | endOfOptions
  /-- A long option, with a value if an equals sign follows the name. -/
  | long (name : String) (value : Option String)
  /-- Letters behind a single dash. -/
  | short (letters : List Char)
  | word (text : String)
  deriving DecidableEq

/-- Cuts a long option at its first equals sign. -/
def splitLong (text : List Char) : Argument :=
  let name := String.ofList (text.takeWhile (· ≠ '='))
  match text.dropWhile (· ≠ '=') with
  | [] => .long name none
  | _ :: value => .long name (some (String.ofList value))

def Argument.ofString (s : String) : Argument :=
  match s.toList with
  | ['-', '-'] => .endOfOptions
  | '-' :: '-' :: text => splitLong text
  | '-' :: c :: cs => .short (c :: cs)
  | _ => .word s

/-! ## Reading -/

/-- How far the output option is read: not begun, begun, or followed by its value. -/
inductive Pending where
  | closed
  | awaiting
  | holding (value : String)
  deriving DecidableEq, Inhabited

structure Reading where
  output : Option String := none
  showEnv : Bool := false
  pending : Pending := .closed
  deriving Inhabited

namespace Reading

/-- Sets the output file. It may be set once, and not to the empty text. -/
def setOutput (r : Reading) (value : String) : Except UsageError Reading :=
  if r.output.isSome then .error .argumentConflict
  else if value = "" then .error .invalidValue
  else .ok { r with output := some value }

/-- Closes the output option if it is open. -/
def close (r : Reading) : Except UsageError Reading :=
  match r.pending with
  | .closed => .ok r
  | .awaiting => .error .invalidValue
  | .holding value => setOutput { r with pending := .closed } value

def setShowEnv (r : Reading) : Except UsageError Reading :=
  if r.showEnv then .error .argumentConflict else .ok { r with showEnv := true }

/-- Reads a long option. -/
def long (r : Reading) (name : String) (value : Option String) : Except UsageError Reading :=
  match name, value with
  | "mover-output", none => do
    let r ← r.close
    pure { r with pending := .awaiting }
  | "mover-output", some value => do
    let r ← r.close
    r.setOutput value
  | "show-env", none => do
    let r ← r.close
    r.setShowEnv
  | "help", none => do
    let _ ← r.close
    .error .displayHelp
  | "show-env", some _ | "help", some _ => .error .tooManyValues
  | _, _ => .error .unknownArgument

/-- Reads letters behind a single dash. Only the first one decides. -/
def short (r : Reading) (letters : List Char) : Except UsageError Reading :=
  match letters with
  | 'h' :: _ => do
    let _ ← r.close
    .error .displayHelp
  | _ => .error .unknownArgument

/-- Reads a word: the value of the output option if that waits for one. -/
def word (r : Reading) (text : String) : Except UsageError Reading :=
  match r.pending with
  | .awaiting => .ok { r with pending := .holding text }
  | _ => .error .unknownArgument

/-- Ends the reading. -/
def finish (r : Reading) : Except UsageError Options := do
  let r ← r.close
  pure { output := r.output.getD ({} : Options).output, showEnv := r.showEnv }

/-- Reads the arguments from left to right. Behind two dashes nothing may follow. -/
def run (r : Reading) : List String → Except UsageError Options
  | [] => r.finish
  | arg :: args =>
    match Argument.ofString arg with
    | .endOfOptions => if args = [] then r.finish else .error .unknownArgument
    | .long name value => do
      let r ← r.long name value
      r.run args
    | .short letters => do
      let r ← r.short letters
      r.run args
    | .word text => do
      let r ← r.word text
      r.run args

end Reading

/-- Reads the options off the arguments of a command line, the program's name left out. -/
def parse (args : List String) : Except UsageError Options := ({} : Reading).run args

end Options

end AtomicMovers
