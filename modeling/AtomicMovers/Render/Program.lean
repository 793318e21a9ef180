import AtomicMovers.Render.Expr

/-!
# The text of declarations and programs

Every procedure and implementation is printed in a scope of its own; the one-line declarations share
one. Each text comes with the list of variables it mentions, from left to right (`…Mentions`), from
which the scope is made.
-/

namespace AtomicMovers

namespace Program

/-- The names and types of a text that mentions the given variables. -/
def lexicon (p : Program) (mentioned : List VarRef) : Lexicon :=
  let scope := (NameScope.ofProgram p).giveNames p mentioned
  { name := scope.nameOf p, ty := fun v => (p.var v).ty }

/-! ## Expressions on their own -/

def renderExpr (p : Program) (e : Expr) : String := e.render (p.lexicon e.mentions)

/-! ## Blocks -/

def transferMentions (p : Program) : Transfer → List VarRef
  | .returnValue e => (p.expr e).mentions
  | _ => []

/-- The end of a block. A target that has no label in this body goes by its own. -/
def renderTransfer (p : Program) (lex : Lexicon) (labels : List (BlockRef × String)) :
    Transfer → String
  | .goto targets =>
    "goto " ++
      commaSeparated (targets.map fun b => (labels.lookup b).getD (p.block b).label) ++ ";"
  | .returnValue e => "return " ++ (p.expr e).render lex ++ ";"
  | .leave => "return;"

def blockMentions (p : Program) (b : BlockRef) : List VarRef :=
  (p.commands b).flatMap Command.mentions ++ p.transferMentions (p.block b).transfer

/-- The pieces of a block's text: its label, its commands, its end. -/
def renderBlock (p : Program) (lex : Lexicon) (labels : List (BlockRef × String)) (b : BlockRef) :
    String × List String :=
  ((labels.lookup b).getD (p.block b).label ++ ":",
    (p.commands b).map (Command.render lex) ++ [p.renderTransfer lex labels (p.block b).transfer])

/-! ## Procedures -/

def bodyMentions (p : Program) (code : Body) : List VarRef :=
  code.locals ++ code.blocks.flatMap p.blockMentions

/-- A body that stands as a condition, all on one line. -/
def renderBody (p : Program) (lex : Lexicon) (code : Body) : String :=
  let labels := blockLabels p code.blocks
  let locals := code.locals.map fun v => "var " ++ lex.binding v ++ ";"
  let blocks := code.blocks.flatMap fun b =>
    let (label, lines) := p.renderBlock lex labels b
    label :: lines
  "|\x7b " ++ String.intercalate " " (locals ++ blocks) ++ " \x7d|"

def conditionMentions (p : Program) : Condition → List VarRef
  | .formula e => (p.expr e).mentions
  | .body code => p.bodyMentions code

def renderCondition (p : Program) (lex : Lexicon) : Condition → String
  | .formula e => (p.expr e).render lex
  | .body code => p.renderBody lex code

def renderAttribute (name : String) : String := "\x7b:" ++ name ++ "\x7d "

/-- Parameters, and results if there are any. -/
def renderSignature (lex : Lexicon) (inputs outputs : List VarRef) : String :=
  match outputs with
  | [] => "(" ++ lex.bindings inputs ++ ")"
  | _ => "(" ++ lex.bindings inputs ++ ") returns (" ++ lex.bindings outputs ++ ")"

def renderTypeParams : List String → String
  | [] => ""
  | names => "<" ++ commaSeparated names ++ ">"

def procedureMentions (p : Program) (r : Procedure) : List VarRef :=
  r.inputs ++ r.outputs ++ r.requires.flatMap (fun e => (p.expr e).mentions) ++
    r.ensures.flatMap fun e => p.conditionMentions e.condition

/-- A procedure with its contract, one clause per line. -/
def renderProcedure (p : Program) (r : Procedure) : String :=
  let lex := p.lexicon (p.procedureMentions r)
  let head :=
    "procedure " ++ r.name ++ renderTypeParams r.typeParams ++
      renderSignature lex r.inputs r.outputs ++ ";\n"
  let requires := r.requires.map fun e => "  requires " ++ (p.expr e).render lex ++ ";\n"
  let ensures := r.ensures.map fun e =>
    "  ensures " ++ String.join (e.attributes.map renderAttribute) ++
      p.renderCondition lex e.condition ++ ";\n"
  head ++ String.join requires ++ String.join ensures

/-! ## Implementations -/

def implementationMentions (p : Program) (i : Implementation) : List VarRef :=
  i.inputs ++ i.outputs ++ i.locals ++ i.blocks.flatMap p.blockMentions

/-- An implementation, one command per line and a blank line between blocks. -/
def renderImplementation (p : Program) (i : Implementation) : String :=
  let lex := p.lexicon (p.implementationMentions i)
  let labels := blockLabels p i.blocks
  let head := "implementation " ++ i.name ++ renderSignature lex i.inputs i.outputs ++ "\n\x7b\n"
  let locals := i.locals.map fun v => "  var " ++ lex.binding v ++ ";\n"
  let gap := if i.locals = [] then "" else "\n"
  let blocks := i.blocks.map fun b =>
    let (label, lines) := p.renderBlock lex labels b
    "  " ++ label ++ "\n" ++ String.join (lines.map fun l => "    " ++ l ++ "\n")
  head ++ String.join locals ++ gap ++ String.intercalate "\n" blocks ++ "\x7d\n"

/-! ## Programs -/

/-- The variables that a one-line declaration mentions. -/
def declarationMentions (p : Program) : Declaration → List VarRef
  | .constant v | .global v => [v]
  | .assumption e => (p.expr e).mentions
  | _ => []

/-- One declaration. Procedures and implementations have a blank line in front unless they come
first. -/
def renderDeclaration (p : Program) (lex : Lexicon) (isFirst : Bool) : Declaration → String
  | .typeName name => "type " ++ name ++ ";\n"
  | .constant v => "const " ++ lex.binding v ++ ";\n"
  | .function sig =>
    "function " ++ sig.name ++ "(" ++ commaSeparated (sig.args.map Ty.render) ++ "): " ++
      sig.result.render ++ ";\n"
  | .assumption e => "axiom " ++ (p.expr e).render lex ++ ";\n"
  | .global v => "var " ++ lex.binding v ++ ";\n"
  | .procedure r => (if isFirst then "" else "\n") ++ p.renderProcedure (p.procedure r)
  | .implementation i => (if isFirst then "" else "\n") ++ p.renderImplementation (p.implementation i)

/-- All declarations in order. -/
def render (p : Program) : String :=
  let lex := p.lexicon (p.declarations.flatMap p.declarationMentions)
  match p.declarations with
  | [] => ""
  | d :: ds =>
    p.renderDeclaration lex true d ++ String.join (ds.map (p.renderDeclaration lex false))

end Program

end AtomicMovers
