import AtomicMovers.Action

/-!
# Proof obligations

What has to be shown about two actions so that one may move past the other. An obligation is stated
as a procedure with an implementation; here are the kinds and the names of these procedures.
-/

namespace AtomicMovers

inductive ObligationKind where
  /-- What the first and then the second action reach, the second and then the first reach too. -/
  | commutativity
  /-- The second action keeps the gate of the first. -/
  | gatePreservation
  /-- Where the gate of the first action fails, the second can run so that it still fails. -/
  | failurePreservation
  deriving DecidableEq, Inhabited

/-- What the names of the procedures of a kind start with. -/
def ObligationKind.stem : ObligationKind → String
  | commutativity => "CommutativityChecker"
  | gatePreservation => "GatePreservationChecker"
  | failurePreservation => "FailurePreservationChecker"

/-- The name of the procedure for two actions. -/
def ObligationKind.procedureName (kind : ObligationKind) (first second : AtomicAction) : String :=
  kind.stem ++ "_" ++ first.name ++ "_" ++ second.name

/-- A position in the list of actions. -/
structure ActionRef where
  index : Nat
  deriving DecidableEq, Inhabited

structure Obligation where
  kind : ObligationKind
  first : ActionRef
  second : ActionRef
  deriving DecidableEq, Inhabited

end AtomicMovers
