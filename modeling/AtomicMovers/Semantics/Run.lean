import AtomicMovers.Action
import AtomicMovers.Semantics.Evaluation

/-!
# Runs of block graphs

A run goes through a block command by command. A false assertion makes it fail, a false assumption
abandons it, and at the end of a block it continues at any one target of the goto. It completes where
a block returns a value or leaves.

Under `old` a command reads the state in which the run started, so every step is relative to it.
-/

namespace AtomicMovers

/-- Where a run stands: a block, what is left of its commands, and the state. -/
structure Config (D : Type) where
  block : BlockRef
  rest : List (Command Expr)
  state : State D

namespace Program

variable {D : Type}

def tyOf (p : Program) (v : VarRef) : Ty := (p.var v).ty

/-- The run at the start of a block. -/
def enterBlock (p : Program) (b : BlockRef) (s : State D) : Config D := ⟨b, p.commands b, s⟩

/-- The value of an expression in the middle of a run that started in `start`. -/
noncomputable def valueIn (p : Program) (I : Interpretation D) (start s : State D) (e : Expr) :
    Value D :=
  e.eval I p.tyOf start s

/-- The state after an assignment. All new values are computed in the state before it. -/
noncomputable def assign (p : Program) (I : Interpretation D) (start s : State D)
    (updates : List (VarRef × Expr)) : State D :=
  s.setAll (updates.map fun u => (u.1, p.valueIn I start s u.2))

/-- One step of a run that started in `start`. -/
inductive Step (p : Program) (I : Interpretation D) (start : State D) :
    Config D → Config D → Prop where
  | assert {b e cs s} (h : (p.valueIn I start s e).Holds) :
    Step p I start ⟨b, .assert e :: cs, s⟩ ⟨b, cs, s⟩
  | assume {b e cs s} (h : (p.valueIn I start s e).Holds) :
    Step p I start ⟨b, .assume e :: cs, s⟩ ⟨b, cs, s⟩
  | assign {b updates cs s} :
    Step p I start ⟨b, .assign updates :: cs, s⟩ ⟨b, cs, p.assign I start s updates⟩
  | goto {b targets t s} (h : (p.block b).transfer = .goto targets) (ht : t ∈ targets) :
    Step p I start ⟨b, [], s⟩ (p.enterBlock t s)

/-- Any number of steps, with the configurations they pass through. -/
inductive Trace (p : Program) (I : Interpretation D) (start : State D) :
    Config D → List (Config D) → Config D → Prop where
  | refl (c : Config D) : Trace p I start c [] c
  | step {c d e : Config D} {passed : List (Config D)} (h : p.Step I start c d)
    (rest : Trace p I start d passed e) : Trace p I start c (c :: passed) e

/-- Any number of steps. -/
def Reaches (p : Program) (I : Interpretation D) (start : State D) (c d : Config D) : Prop :=
  ∃ passed, p.Trace I start c passed d

end Program

/-! ## How runs end -/

namespace Config

variable {D : Type}

/-- At the end of a block that returns a value. -/
def Returns (p : Program) (c : Config D) : Prop :=
  c.rest = [] ∧ ∃ e, (p.block c.block).transfer = .returnValue e

/-- At the end of a block that leaves the implementation. -/
def Leaves (p : Program) (c : Config D) : Prop :=
  c.rest = [] ∧ (p.block c.block).transfer = .leave

/-- At a false assertion. -/
def Fails (p : Program) (I : Interpretation D) (start : State D) (c : Config D) : Prop :=
  ∃ e cs, c.rest = .assert e :: cs ∧ ¬(p.valueIn I start c.state e).Holds

/-- At a false assumption, or at a goto without targets. -/
def Blocked (p : Program) (I : Interpretation D) (start : State D) (c : Config D) : Prop :=
  (∃ e cs, c.rest = .assume e :: cs ∧ ¬(p.valueIn I start c.state e).Holds) ∨
    (c.rest = [] ∧ (p.block c.block).transfer = .goto [])

end Config

/-- The ways in which a run can end. -/
inductive Outcome where
  | returns
  | leaves
  | fails
  | blocked
  deriving DecidableEq

/-- The run has ended in the given way. -/
def Config.Ends {D : Type} (p : Program) (I : Interpretation D) (start : State D) (c : Config D) :
    Outcome → Prop
  | .returns => c.Returns p
  | .leaves => c.Leaves p
  | .fails => c.Fails p I start
  | .blocked => c.Blocked p I start

namespace Program

variable {D : Type}

/-- Some run from `s` at the block `entry` returns a value in the state `t`. -/
def Completes (p : Program) (I : Interpretation D) (entry : BlockRef) (s t : State D) : Prop :=
  ∃ c, p.Reaches I s (p.enterBlock entry s) c ∧ c.Returns p ∧ c.state = t

/-- Some run from `s` at the block `entry` leaves in the state `t`. -/
def Exits (p : Program) (I : Interpretation D) (entry : BlockRef) (s t : State D) : Prop :=
  ∃ c, p.Reaches I s (p.enterBlock entry s) c ∧ c.Leaves p ∧ c.state = t

end Program

end AtomicMovers
