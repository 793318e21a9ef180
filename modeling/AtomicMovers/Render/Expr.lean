import AtomicMovers.Naming

/-!
# The text of expressions and commands

A text is a function of what the variables are called and what types they have (`Lexicon`). Binary
operations are always in parentheses, so precedence plays no role.

`Expr.mentions` and `Command.mentions` list the variables of a text from left to right, which is the
order in which they are to be named.
-/

namespace AtomicMovers

/-- The names and types that a text uses. -/
structure Lexicon where
  name : VarRef → String
  ty : VarRef → Ty

/-- Texts separated by commas. -/
def commaSeparated (texts : List String) : String := String.intercalate ", " texts

def Ty.render : Ty → String
  | bool => "bool"
  | int => "int"
  | bits width => "bv" ++ toString width
  | named name => name

def Literal.render : Literal → String
  | bool true => "true"
  | bool false => "false"
  | int value => toString value
  | bits value width => toString value ++ "bv" ++ toString width

def BinaryOp.symbol : BinaryOp → String
  | and => "&&"
  | or => "||"
  | implies => "==>"
  | iff => "<==>"
  | eq => "=="
  | ne => "!="
  | lt => "<"
  | le => "<="
  | gt => ">"
  | ge => ">="
  | add => "+"
  | sub => "-"
  | mul => "*"
  | div => "div"
  | mod => "mod"

def Quantifier.keyword : Quantifier → String
  | universal => "forall"
  | existential => "exists"

/-- A variable with its type, as it is declared. -/
def Lexicon.binding (lex : Lexicon) (v : VarRef) : String :=
  lex.name v ++ ": " ++ (lex.ty v).render

/-- Variables with their types, as they are declared in a list. -/
def Lexicon.bindings (lex : Lexicon) (vs : List VarRef) : String :=
  commaSeparated (vs.map lex.binding)

namespace Expr

mutual

def render (lex : Lexicon) : Expr → String
  | .lit value => value.render
  | .var v => lex.name v
  | .old e => "old(" ++ e.render lex ++ ")"
  | .unary .not e => "!" ++ e.render lex
  | .unary .neg e => "(- " ++ e.render lex ++ ")"
  | .binary op l r => "(" ++ l.render lex ++ " " ++ op.symbol ++ " " ++ r.render lex ++ ")"
  | .call f args => f ++ "(" ++ commaSeparated (renderAll lex args) ++ ")"
  | .quant q bound body =>
    "(" ++ q.keyword ++ " " ++ lex.bindings bound ++ " :: " ++ body.render lex ++ ")"

def renderAll (lex : Lexicon) : List Expr → List String
  | [] => []
  | e :: es => e.render lex :: renderAll lex es

end

mutual

/-- The variables of the text of an expression, from left to right. -/
def mentions : Expr → List VarRef
  | .lit _ => []
  | .var v => [v]
  | .old e => e.mentions
  | .unary _ e => e.mentions
  | .binary _ l r => l.mentions ++ r.mentions
  | .call _ args => mentionsAll args
  | .quant _ bound body => bound ++ body.mentions

def mentionsAll : List Expr → List VarRef
  | [] => []
  | e :: es => e.mentions ++ mentionsAll es

end

end Expr

namespace Command

def render (lex : Lexicon) : Command Expr → String
  | .assert e => "assert " ++ e.render lex ++ ";"
  | .assume e => "assume " ++ e.render lex ++ ";"
  | .assign updates =>
    commaSeparated (updates.map fun u => lex.name u.1) ++ " := " ++
      commaSeparated (updates.map fun u => u.2.render lex) ++ ";"

/-- The variables of the text of a command, from left to right: all assigned variables stand before
all new values. -/
def mentions : Command Expr → List VarRef
  | .assert e | .assume e => e.mentions
  | .assign updates => updates.map Prod.fst ++ updates.flatMap fun u => u.2.mentions

end Command

end AtomicMovers
