import AtomicMovers.Program.Syntax

/-!
# Mover types

The mover type of an atomic action says with what other actions may be exchanged: a right mover
with whatever follows it, a left mover with whatever precedes it. It is read off the attributes of
the postcondition that makes a procedure an atomic action.
-/

namespace AtomicMovers

inductive Mover where
  /-- Atomic, and not claimed to move. -/
  | atomic
  | right
  | left
  | both
  deriving DecidableEq, Inhabited

namespace Mover

def isRight : Mover → Bool
  | right | both => true
  | _ => false

def isLeft : Mover → Bool
  | left | both => true
  | _ => false

/-- The attribute that tags a postcondition with a mover type. -/
def tag : Mover → String
  | atomic => "atomic"
  | right => "right"
  | left => "left"
  | both => "both"

/-- The mover types, those that win over others first. -/
def byPrecedence : List Mover := [atomic, right, left, both]

end Mover

def Postcondition.carries (e : Postcondition) (name : String) : Bool :=
  e.attributes.contains name

/-- The mover type a postcondition is tagged with. Of several tags the first by precedence counts; an
untagged postcondition has none. -/
def Postcondition.mover? (e : Postcondition) : Option Mover :=
  Mover.byPrecedence.find? fun m => e.carries m.tag

end AtomicMovers
