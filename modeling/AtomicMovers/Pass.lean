import AtomicMovers.Ledger
import AtomicMovers.Options
import AtomicMovers.Render.Program

/-!
# The whole pass

From an input program to the program that states all its obligations, and on to the text that is
written. Whether the output file can be opened is a question to the outside, so it enters as a
function of the path.
-/

namespace AtomicMovers

namespace Pass

/-- Registers all actions and, if there are any, enters all obligations. -/
def obligationSteps (input : Program) : LedgerM (Option Program) := do
  Ledger.register input
  let l ← get
  if l.actions.isEmpty then
    pure none
  else
    Ledger.enterAll
    let l ← get
    pure (some l.finish)

/-- The program that states all obligations of the input, or `none` if the input has no atomic
actions; together with what there is to report. -/
def obligations (input : Program) (ownership : Ownership) :
    Except Error (Option Program) × List Diagnostic :=
  let (result, l) := (obligationSteps input).run (Ledger.ofProgram input ownership)
  (result, l.diagnostics)

/-- Comment lines that name the tool, its version and the command line. -/
def headerComment (commandLine : String) : String :=
  "// mover-check version 0.1.0\n// " ++ commandLine ++ "\n"

/-- The text of the output file. -/
def outputText (options : Options) (commandLine : String) (p : Program) : String :=
  (if options.showEnv then headerComment commandLine else "") ++ "\n" ++ p.render

/-- What a run did. -/
structure Outcome where
  /-- Whether a file was written, or why the run failed. -/
  result : Except Error Bool
  /-- What was written. -/
  text : Option String
  diagnostics : List Diagnostic

/-- Runs the pass. `openFailure` tells whether a path can be opened for writing. A failure is also
reported. -/
def perform (input : Program) (ownership : Ownership) (options : Options) (commandLine : String)
    (openFailure : String → Option WriteError) : Outcome :=
  let (result, reported) := obligations input ownership
  let failed (e : Error) : Outcome :=
    { result := .error e, text := none,
      diagnostics := reported ++ [{ severity := .error, message := e.message }] }
  match result with
  | .error e => failed e
  | .ok none => { result := .ok false, text := none, diagnostics := reported }
  | .ok (some p) =>
    match openFailure options.output with
    | some cause => failed (.write cause)
    | none =>
      { result := .ok true, text := some (outputText options commandLine p),
        diagnostics := reported }

end Pass

end AtomicMovers
