import AtomicMovers.Error

/-!
# Diagnostics

A diagnostic is a message of some severity, about one procedure or about the whole run. There are no
positions in a source text to point at, so a diagnostic about a procedure names it in a note.
`Diagnostic.render` gives the text, with or without terminal colours.
-/

namespace AtomicMovers

inductive Severity where
  | error
  | warning
  deriving DecidableEq, Inhabited

structure Diagnostic where
  severity : Severity
  message : String
  /-- The procedure the diagnostic is about. -/
  procedure : Option String := none
  deriving DecidableEq, Inhabited

/-! ## Lines -/

/-- Cuts a text at its line feeds. -/
def splitLines : List Char → List (List Char)
  | [] => [[]]
  | '\n' :: cs => [] :: splitLines cs
  | c :: cs =>
    match splitLines cs with
    | line :: lines => (c :: line) :: lines
    | [] => [[c]]

/-- A line without the carriage return it may end with. -/
def dropCarriageReturn (line : List Char) : List Char :=
  if line.getLast? = some '\r' then line.dropLast else line

/-- The lines of a text. A line ends at a line feed or at a carriage return and a line feed; the last
line has no end to drop. -/
def textLines (text : String) : List String :=
  let lines := splitLines text.toList
  (lines.dropLast.map dropCarriageReturn ++ lines.getLast?.toList).map String.ofList

/-! ## Colours -/

/-- A terminal control sequence. -/
def control (code : String) : String := "\x1b[" ++ code ++ "m"

/-- Back to the terminal's default. -/
def plain : String := control "0"

/-- Bold text in the colour that `code` selects, starting from the default. -/
def bold (code : String) : String := plain ++ control "1" ++ control code

namespace Severity

/-- The word that starts a message about the whole run. -/
def title : Severity → String
  | error => "Error"
  | warning => "Warning"

/-- The word that starts a message about a procedure. -/
def tag : Severity → String
  | error => "error"
  | warning => "warning"

/-- The colour of `title`. -/
def titleColor : Severity → String
  | error => "31"
  | warning => "33"

/-- The colour of `tag`. -/
def tagColor : Severity → String
  | error => "38;5;9"
  | warning => "38;5;11"

end Severity

namespace Diagnostic

/-- A note below a message: its first line follows an equals sign, further lines are aligned with
it. -/
def renderNote (bullet note : String) : String :=
  match textLines note with
  | [] => ""
  | first :: rest =>
    " " ++ bullet ++ " " ++ first ++ "\n" ++ String.join (rest.map fun l => "   " ++ l ++ "\n")

def renderGeneral (colored : Bool) (severity : Severity) (message : String) : String :=
  let title :=
    if colored then bold severity.titleColor ++ severity.title ++ plain else severity.title
  title ++ ": " ++ message ++ "\n"

def renderAbout (colored : Bool) (severity : Severity) (message procedure : String) : String :=
  let head :=
    if colored then
      bold severity.tagColor ++ severity.tag ++ plain ++ control "1" ++ ": " ++ message ++ plain
    else severity.tag ++ ": " ++ message
  let bullet := if colored then plain ++ control "34" ++ "=" ++ plain else "="
  head ++ "\n" ++ renderNote bullet ("in procedure " ++ quoted procedure) ++ "\n"

def render (colored : Bool) (d : Diagnostic) : String :=
  match d.procedure with
  | none => renderGeneral colored d.severity d.message
  | some p => renderAbout colored d.severity d.message p

/-- The texts of diagnostics one after another. -/
def renderAll (colored : Bool) (ds : List Diagnostic) : String :=
  String.join (ds.map (render colored))

end Diagnostic

end AtomicMovers
